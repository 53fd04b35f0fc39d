import GridKernel.Proofs.ExpressionTexts
import GridKernel.Proofs.ListingLines
import GridKernel.Stmt.Parameters

/-! Texts of listings. Where all names are identifiers, the text of an expression is on one line,
begins with no blank and has no pointer, and every line of a listing is on one line and begins with
no blank. -/
namespace GridKernel

/-- A text on one line. -/
def OneLine (text : String) : Prop := '\n' ∉ text.toList

instance (text : String) : Decidable (OneLine text) := inferInstanceAs (Decidable (_ ∉ _))

@[simp] theorem oneLine_append {s t : String} : OneLine (s ++ t) ↔ OneLine s ∧ OneLine t := by
  simp [OneLine, not_or]

theorem oneLine_join {ts : List String} (h : ∀ t ∈ ts, OneLine t) : OneLine (String.join ts) := by
  simpa [OneLine, String.toList_join] using h

theorem oneLine_intercalate {s : String} {ts : List String} (hs : OneLine s)
    (h : ∀ t ∈ ts, OneLine t) : OneLine (s.intercalate ts) := by
  induction ts with
  | nil => simp [OneLine]
  | cons t ts ih =>
    have ht : OneLine t := h t (by simp)
    cases ts with
    | nil => exact ht
    | cons u us =>
      rw [String.intercalate_cons_cons, oneLine_append, oneLine_append]
      exact ⟨⟨ht, hs⟩, ih fun v hv => h v (by simp [hv])⟩

/-- A text that begins with a character that is no blank. -/
def Starts (text : String) : Prop := ∃ c ∈ text.toList.head?, c ≠ ' '

theorem Starts.append {s : String} (h : Starts s) (t : String) : Starts (s ++ t) := by
  obtain ⟨c, hc, hblank⟩ := h
  exact ⟨c, by rw [String.toList_append, List.head?_append, hc, Option.some_or]; rfl, hblank⟩

theorem Starts.grouped {s : String} (h : Starts s) (parens : Bool) :
    Starts (Expr.grouped parens s) := by
  cases parens with
  | false => exact h
  | true => exact ⟨'(', by rw [Source.toList_grouped]; rfl, by decide⟩

/-- A text on one line in which no star comes right after an opening parenthesis, or could when the
text stands between others. -/
structure Tame (text : String) : Prop where
  oneLine : OneLine text
  chain : text.toList.IsChain fun c d => ¬ (c = '(' ∧ d = '*')
  first : ∀ c ∈ text.toList.head?, c ≠ '*'
  last : ∀ c ∈ text.toList.getLast?, c ≠ '('

namespace Tame

variable {s t : String}

theorem append (hs : Tame s) (ht : Tame t) : Tame (s ++ t) where
  oneLine := oneLine_append.2 ⟨hs.oneLine, ht.oneLine⟩
  chain := by
    rw [String.toList_append, List.isChain_append]
    exact ⟨hs.chain, ht.chain, fun c hc d hd h => hs.last c hc h.1⟩
  first c hc := by
    rw [String.toList_append, List.head?_append, Option.mem_def, Option.or_eq_some_iff] at hc
    rcases hc with hc | ⟨-, hc⟩
    · exact hs.first c hc
    · exact ht.first c hc
  last c hc := by
    rw [String.toList_append, List.getLast?_append, Option.mem_def, Option.or_eq_some_iff] at hc
    rcases hc with hc | ⟨-, hc⟩
    · exact ht.last c hc
    · exact hs.last c hc

theorem of_forall (h : ∀ c ∈ s.toList, c ≠ '\n' ∧ c ≠ '(' ∧ c ≠ '*') : Tame s where
  oneLine hc := (h _ hc).1 rfl
  chain := by
    have hpairs : s.toList.Pairwise fun c d => ¬ (c = '(' ∧ d = '*') :=
      List.pairwise_of_forall_mem_list fun c hc _ _ hcd => (h c hc).2.1 hcd.1
    exact hpairs.isChain
  first c hc := (h c (List.mem_of_mem_head? hc)).2.2
  last c hc := (h c (List.mem_of_mem_getLast? hc)).2.1

theorem of_all (h : s.toList.all fun c => c ≠ '\n' ∧ c ≠ '(' ∧ c ≠ '*') : Tame s :=
  of_forall fun c hc => of_decide_eq_true (List.all_eq_true.1 h c hc)

/-- An opening parenthesis goes in front of a text that is not empty. -/
theorem opened (h : Tame s) (hne : s.toList ≠ []) : Tame ("(" ++ s) where
  oneLine := oneLine_append.2 ⟨by decide, h.oneLine⟩
  chain := by
    have htext : ("(" ++ s).toList = '(' :: s.toList := String.toList_append
    rw [htext, List.isChain_cons]
    exact ⟨fun c hc hcd => h.first c hc hcd.2, h.chain⟩
  first c hc := by
    have htext : ("(" ++ s).toList = '(' :: s.toList := String.toList_append
    rw [htext] at hc
    obtain rfl := Option.some.inj hc
    decide
  last c hc := by
    obtain ⟨d, hd⟩ := Option.isSome_iff_exists.1 (List.getLast?_isSome.2 hne)
    rw [String.toList_append, List.getLast?_append, hd] at hc
    exact h.last c (hd.trans hc)

theorem grouped (h : Tame s) (parens : Bool) : Tame (Expr.grouped parens s) := by
  cases parens with
  | false => exact h
  | true =>
    have hclose : Tame ")" := of_all (by decide)
    have htext : Expr.grouped true s = "(" ++ (s ++ ")") := String.append_assoc
    rw [htext]
    exact (h.append hclose).opened (by simp)

end Tame

/-- A text of letters, digits, underscores, signs and points. -/
structure Atomic (text : String) : Prop where
  nonempty : text.toList ≠ []
  chars : ∀ c ∈ text.toList, Identifier.isPart c ∨ c = '-' ∨ c = '.'

namespace Atomic

variable {text : String}

theorem ne (h : Atomic text) {c d : Char} (hc : c ∈ text.toList)
    (hd : Identifier.isPart d = false ∧ d ≠ '-' ∧ d ≠ '.') : c ≠ d := by
  rcases h.chars c hc with hpart | rfl | rfl
  · exact Source.ne_of_isPart hpart hd.1
  · exact hd.2.1.symm
  · exact hd.2.2.symm

theorem tame (h : Atomic text) : Tame text :=
  Tame.of_forall fun _ hc => ⟨h.ne hc (by decide), h.ne hc (by decide), h.ne hc (by decide)⟩

theorem starts (h : Atomic text) : Starts text := by
  obtain ⟨c, cs, htext⟩ := List.exists_cons_of_ne_nil h.nonempty
  exact ⟨c, by rw [htext]; rfl, h.ne (by rw [htext]; exact List.mem_cons_self) (by decide)⟩

theorem of_all (hne : text.toList ≠ [])
    (h : text.toList.all fun c => Identifier.isPart c ∨ c = '-' ∨ c = '.') : Atomic text :=
  ⟨hne, fun c hc => of_decide_eq_true (List.all_eq_true.1 h c hc)⟩

theorem of_name (h : Identifier.isValid text) : Atomic text := by
  obtain ⟨c, cs, htext, hstart, hparts⟩ := Identifier.isValid_iff.1 h
  refine ⟨by simp [htext], fun d hd => .inl ?_⟩
  rw [htext] at hd
  rcases List.mem_cons.1 hd with rfl | hd
  · exact Identifier.isPart_of_isStart hstart
  · exact hparts d hd

/-- A sign may stand in front of digits and points. -/
theorem of_signed {cs : List Char} (negative : Bool)
    (htext : text.toList = (if negative then ['-'] else []) ++ cs) (hne : cs ≠ [])
    (hcs : ∀ c ∈ cs, c.isDigit ∨ c = '.') : Atomic text := by
  refine ⟨by simp [htext, hne], fun c hc => ?_⟩
  rw [htext] at hc
  rcases List.mem_append.1 hc with hc | hc
  · cases negative with
    | false => cases hc
    | true => exact .inr (.inl (List.mem_singleton.1 hc))
  · exact (hcs c hc).imp Source.isPart_of_isDigit .inr

theorem of_int (n : Int) : Atomic (toString n) :=
  of_signed (decide (n < 0)) (Source.toList_toString_int n) Nat.toDigits_ne_nil
    fun c hc => .inl (Json.Numeral.isDigit_toDigits c hc)

theorem of_literal (x : Binary64) : Atomic x.literal := by
  cases hfinite : x.isFinite with
  | true =>
    obtain ⟨whole, fraction, htext, hrounds⟩ := Binary64.exists_literal hfinite
    apply of_signed x.isNegative htext (by simp)
    intro c hc
    rcases List.mem_append.1 hc with hc | hc
    · exact .inl (hrounds.digits c (List.mem_append_left _ hc))
    · rcases List.mem_cons.1 hc with rfl | hc
      · exact .inr rfl
      · exact .inl (hrounds.digits c (List.mem_append_right _ hc))
  | false =>
    have hint : x.toInt? = none := by simp [Binary64.toInt?, hfinite]
    have hliteral : x.literal = x.plain := by rw [Binary64.literal, hint]
    rw [hliteral, Binary64.plain]
    split
    · exact of_name (by decide)
    · rename_i hnan
      have hinfinite : x.isInfinite := by
        simp only [Binary64.isNaN, hfinite, Bool.not_false, Bool.true_and] at hnan
        simpa [Binary64.isInfinite, hfinite] using hnan
      rw [if_pos hinfinite]
      change Atomic ((if x.isNegative then "-" else "") ++ "inf")
      cases x.isNegative with
      | false => exact of_name (by decide)
      | true => exact of_all (by decide) (by decide)

end Atomic

namespace Expr

/-- All names that expressions show are identifiers. -/
def AllNamed (es : List Expr) : Prop :=
  ∀ x ∈ nodesAll es, ∀ n, x.name? = some n → Identifier.isValid n

/-- All names that an expression shows are identifiers. -/
def Named (e : Expr) : Prop := ∀ x ∈ e.nodes, ∀ n, x.name? = some n → Identifier.isValid n

theorem Named.atomic {e x : Expr} (h : e.Named) (hx : x ∈ e.nodes) {n : String}
    (hn : x.name? = some n) : Atomic n :=
  Atomic.of_name (h x hx n hn)

/-- Blanks stand around an operator. -/
theorem tame_symbol (op : BinaryOp) : Tame (" " ++ op.symbol ++ " ") := by
  have hfirst : (" " ++ op.symbol ++ " ").toList.head? = some ' ' := by cases op <;> rfl
  have hlast : (" " ++ op.symbol ++ " ").toList.getLast? = some ' ' := by cases op <;> rfl
  refine ⟨by cases op <;> decide, by cases op <;> decide, fun c hc => ?_, fun c hc => ?_⟩
  · obtain rfl := Option.some.inj (hfirst.symm.trans hc)
    decide
  · obtain rfl := Option.some.inj (hlast.symm.trans hc)
    decide

mutual

/-- The text of an expression begins with no blank. -/
theorem Named.text : (e : Expr) → e.Named → Tame e.text ∧ Starts e.text
  | .int n, _ => ⟨(Atomic.of_int _).tame, (Atomic.of_int _).starts⟩
  | .float x, _ => ⟨(Atomic.of_literal x).tame, (Atomic.of_literal x).starts⟩
  | .symbol name, h => by
    have hname := h.atomic (List.mem_singleton_self _) rfl
    exact ⟨hname.tame, hname.starts⟩
  | .scalar s, h => by
    have hname := h.atomic (List.mem_singleton_self _) rfl
    exact ⟨hname.tame, hname.starts⟩
  | .dim d, h => by
    have hname := h.atomic (List.mem_singleton_self _) rfl
    exact ⟨hname.tame, hname.starts⟩
  | .size name, h => by
    have hname := h.atomic (List.mem_singleton_self _) rfl
    have hsize : Atomic "_size" := .of_name (by decide)
    exact ⟨hname.tame.append hsize.tame, hname.starts.append _⟩
  | .access a indices, h => by
    have hname := h.atomic List.mem_cons_self rfl
    have hindices := AllNamed.subscripts indices fun x hx => h x (List.mem_cons_of_mem _ hx)
    exact ⟨hname.tame.append hindices, hname.starts.append _⟩
  | .neg e, h => by
    obtain ⟨htame, -⟩ := Named.text e fun x hx => h x (List.mem_cons_of_mem _ hx)
    have hminus : Atomic "-" := .of_all (by decide) (by decide)
    exact ⟨hminus.tame.append (htame.grouped _), hminus.starts.append _⟩
  | .binary op l r, h => by
    obtain ⟨hl, hstarts⟩ := Named.text l fun x hx => h x (by simp [nodes, hx])
    obtain ⟨hr, -⟩ := Named.text r fun x hx => h x (by simp [nodes, hx])
    have htext : (Expr.binary op l r).text =
        grouped (needsParens op l false) l.text ++ (" " ++ op.symbol ++ " ") ++
          grouped (needsParens op r true) r.text := by
      rw [Expr.text]
      simp only [String.append_assoc]
    rw [htext]
    exact ⟨((hl.grouped _).append (tame_symbol op)).append (hr.grouped _),
      ((hstarts.grouped _).append _).append _⟩
termination_by structural e => e

theorem AllNamed.subscripts : (es : List Expr) → AllNamed es → Tame (subscripts es)
  | [], _ => Tame.of_all (by decide)
  | e :: es, h => by
    obtain ⟨htame, -⟩ := Named.text e fun x hx => h x (by simp [nodesAll, hx])
    have hrest := AllNamed.subscripts es fun x hx => h x (by simp [nodesAll, hx])
    have hopen : Tame "[" := .of_all (by decide)
    have hclose : Tame "]" := .of_all (by decide)
    exact ((hopen.append htame).append hclose).append hrest
termination_by structural es => es

end

theorem named_int (n : Int64) : (int n).Named := by
  intro x hx m hm
  obtain rfl := List.mem_singleton.1 hx
  cases hm

theorem Named.binary {op : BinaryOp} {e f : Expr} (he : e.Named) (hf : f.Named) :
    (binary op e f).Named := by
  intro x hx n hn
  rcases List.mem_cons.1 hx with rfl | hx
  · cases hn
  · rcases List.mem_append.1 hx with hx | hx
    · exact he x hx n hn
    · exact hf x hx n hn

/-- A sum with a width shows no further name. -/
theorem Named.add {e f : Expr} (h : e.Named) {n : Int64} (hf : e.add (int n) = .ok f) :
    f.Named := by
  have hother : (if n == 0 then .ok e
      else if n < 0 then do return Expr.binary .sub e (int (← Word.neg n))
      else .ok (Expr.binary .add e (int n)) : Result Expr) = .ok f → f.Named := by
    split
    · intro hf
      obtain rfl := Except.ok.inj hf
      exact h
    · split
      · intro hf
        obtain ⟨k, -, hf⟩ := bind_eq_ok.1 hf
        obtain rfl := Except.ok.inj hf
        exact h.binary (named_int k)
      · intro hf
        obtain rfl := Except.ok.inj hf
        exact h.binary (named_int n)
  cases e with
  | int m =>
    obtain ⟨k, -, rfl⟩ := map_eq_ok.1 hf
    exact named_int k
  | _ => exact hother hf

end Expr

/-- Extents show the names in the shape of their array. -/
theorem GridArray.named_allocated {a : GridArray} (h : ∀ e ∈ a.shape, e.Named) {axis : Nat}
    {e : Expr} (he : a.allocated axis = .ok e) : e.Named := by
  obtain ⟨halo, -, he⟩ := bind_eq_ok.1 he
  obtain ⟨size, hsize, he⟩ := bind_eq_ok.1 he
  obtain ⟨width, -, he⟩ := bind_eq_ok.1 he
  exact (h size (List.mem_of_getElem? (entryAt_eq_ok.1 hsize))).add he

namespace Stmt

/-- The names that a statement shows itself, outside its expressions. -/
def ownNames : Stmt → List String
  | declare t => [t.name]
  | view a => [a.name]
  | loop h _ => h.dim.name :: h.companions.map Dimension.name
  | kernel s _ => s.name :: s.parameters.map Parameter.name
  | _ => []

/-- The expressions that a statement shows itself. -/
def shown : Stmt → List Expr
  | view a => a.shape
  | s => s.exprs

/-- All names that a statement shows itself are identifiers. -/
structure OwnNamed (s : Stmt) : Prop where
  names : ∀ n ∈ s.ownNames, Identifier.isValid n
  exprs : ∀ e ∈ s.shown, e.Named

end Stmt

theorem atomic_keyword (k : ElementType) : Atomic k.keyword := by
  cases k <;> exact .of_name (by decide)

theorem Equation.tame_line {eqn : Equation} (hl : eqn.lhs.Named) (hr : eqn.rhs.Named) :
    Tame eqn.line ∧ Starts eqn.line := by
  obtain ⟨htarget, hstarts⟩ := Expr.Named.text eqn.lhs hl
  obtain ⟨hvalue, -⟩ := Expr.Named.text eqn.rhs hr
  have hequals : Tame " = " := .of_all (by decide)
  have hend : Tame ";" := .of_all (by decide)
  exact ⟨((htarget.append hequals).append hvalue).append hend,
    ((hstarts.append _).append _).append _⟩

/-- A text on one line that begins with no blank. -/
def Legible (text : String) : Prop := OneLine text ∧ Starts text

/-- A constant in front of a text on one line. -/
theorem Legible.append {s t : String} (hs : Legible s) (ht : OneLine t) : Legible (s ++ t) :=
  ⟨oneLine_append.2 ⟨hs.1, ht⟩, hs.2.append t⟩

theorem Atomic.legible {text : String} (h : Atomic text) : Legible text :=
  ⟨h.tame.oneLine, h.starts⟩

theorem Expr.Named.oneLine {e : Expr} (h : e.Named) : OneLine e.text := (text e h).1.oneLine

theorem oneLine_name {name : String} (h : Identifier.isValid name) : OneLine name :=
  (Atomic.of_name h).tame.oneLine

/-- The start and the step of a companion in the head of its loop. -/
theorem Dimension.oneLine_texts {d : Dimension} (hname : Identifier.isValid d.name)
    (hexprs : ∀ e ∈ d.stepping, e.Named) : OneLine d.startText ∧ OneLine d.stepText := by
  obtain ⟨name, role⟩ := d
  have hname := oneLine_name hname
  have hcounts : OneLine (", " ++ name ++ " = 0") ∧ OneLine (", " ++ name ++ " += 1") := by
    simp only [oneLine_append]
    exact ⟨⟨⟨by decide, hname⟩, by decide⟩, ⟨by decide, hname⟩, by decide⟩
  cases role with
  | incremented parent start step =>
    have hstart := (hexprs start (by simp [stepping])).oneLine
    have hstep := (hexprs step (by simp [stepping])).oneLine
    show OneLine (", " ++ name ++ " = " ++ start.text) ∧
      OneLine (", " ++ name ++ " += " ++ step.text)
    simp only [oneLine_append]
    exact ⟨⟨⟨⟨by decide, hname⟩, by decide⟩, hstart⟩, ⟨⟨by decide, hname⟩, by decide⟩, hstep⟩
  | _ => exact hcounts

theorem LoopHead.text_eq (h : LoopHead) : h.text =
    "for (int " ++ h.dim.name ++ " = " ++ h.bounds.lower.text ++
      String.join (h.companions.map Dimension.startText) ++ "; " ++ h.dim.name ++ " " ++
      (if h.bounds.step < 0 then ">" else "<") ++ " " ++ h.bounds.upper.text ++ "; " ++
      (h.dim.name ++ " += " ++ toString h.bounds.step.toInt ++
        String.join (h.companions.map Dimension.stepText) ++ ")") := rfl

theorem LoopHead.legible {h : LoopHead} {body : Stmt} (hs : (Stmt.loop h body).OwnNamed) :
    Legible h.text := by
  have hdim := oneLine_name (hs.names h.dim.name (by simp [Stmt.ownNames]))
  have hlower : h.bounds.lower.Named := hs.exprs _ (by simp [Stmt.shown, Stmt.exprs])
  have hupper : h.bounds.upper.Named := hs.exprs _ (by simp [Stmt.shown, Stmt.exprs])
  have hcompanion (d : Dimension) (hd : d ∈ h.companions) :
      OneLine d.startText ∧ OneLine d.stepText := by
    apply Dimension.oneLine_texts
    · exact hs.names d.name (List.mem_cons_of_mem _ (List.mem_map_of_mem hd))
    · intro e he
      refine hs.exprs e ?_
      simp only [Stmt.shown, Stmt.exprs, List.mem_cons, List.mem_flatMap]
      exact .inr (.inr ⟨d, hd, he⟩)
  have hstarts : OneLine (String.join (h.companions.map Dimension.startText)) :=
    oneLine_join (List.forall_mem_map.2 fun d hd => (hcompanion d hd).1)
  have hsteps : OneLine (String.join (h.companions.map Dimension.stepText)) :=
    oneLine_join (List.forall_mem_map.2 fun d hd => (hcompanion d hd).2)
  have htest : OneLine (if h.bounds.step < 0 then ">" else "<") := by split <;> decide
  rw [text_eq]
  constructor
  · simp only [oneLine_append, and_assoc]
    exact ⟨by decide, hdim, by decide, hlower.oneLine, hstarts, by decide, hdim, by decide, htest,
      by decide, hupper.oneLine, by decide, hdim, by decide, (Atomic.of_int _).tame.oneLine, hsteps,
      by decide⟩
  · exact ⟨'f', by simp, by decide⟩

theorem Parameter.oneLine {p : Parameter} (h : Identifier.isValid p.name) : OneLine p.text := by
  have hname := oneLine_name h
  cases p with
  | array a =>
    have hkeyword := (atomic_keyword a.element).tame.oneLine
    show OneLine (a.element.keyword ++ " *restrict " ++ a.name ++ "_vec")
    simp only [oneLine_append, and_assoc]
    exact ⟨hkeyword, by decide, hname, by decide⟩
  | scalar s =>
    have hkeyword := (atomic_keyword s.element).tame.oneLine
    show OneLine ("const " ++ s.element.keyword ++ " " ++ s.name)
    simp only [oneLine_append, and_assoc]
    exact ⟨by decide, hkeyword, by decide, hname⟩

/-- The word for the type of a result. -/
def Signature.resultWord (s : Signature) : String :=
  (s.result?.map ElementType.keyword).getD "void"

theorem Signature.text_eq (s : Signature) : s.text =
    String.join (s.qualifiers.map (·.tag ++ " ")) ++ (s.resultWord ++ (" " ++ s.name ++ "(" ++
      ", ".intercalate (s.parameters.map Parameter.text) ++ ")")) := by
  simp only [← String.append_assoc]
  rfl

/-- A signature begins with its first qualifier or with the type of its result. -/
theorem Signature.exists_word (s : Signature) :
    ∃ word ∈ ["static", "int", "long", "float", "double", "void"], ∃ after,
      s.text.toList = word.toList ++ ' ' :: after := by
  have hresult : s.resultWord ∈ ["static", "int", "long", "float", "double", "void"] := by
    rw [resultWord]
    cases s.result? with
    | none => simp
    | some k => cases k <;> simp [ElementType.keyword]
  rw [text_eq]
  cases s.qualifiers with
  | nil =>
    refine ⟨s.resultWord, hresult,
      (s.name ++ "(" ++ ", ".intercalate (s.parameters.map Parameter.text) ++ ")").toList, ?_⟩
    simp [String.toList_append]
  | cons q qs =>
    cases q
    refine ⟨"static", by simp, (String.join (qs.map (·.tag ++ " ")) ++ (s.resultWord ++ (" " ++
      s.name ++ "(" ++ ", ".intercalate (s.parameters.map Parameter.text) ++ ")"))).toList, ?_⟩
    simp [String.toList_append, Qualifier.tag]

/-- A signature is on one line with identifiers. -/
theorem Signature.legible {s : Signature} {body : Stmt} (hs : (Stmt.kernel s body).OwnNamed) :
    Legible s.text := by
  have hname := oneLine_name (hs.names s.name (by simp [Stmt.ownNames]))
  have hparameters : OneLine (", ".intercalate (s.parameters.map Parameter.text)) :=
    oneLine_intercalate (by decide) (List.forall_mem_map.2 fun p hp =>
      Parameter.oneLine (hs.names p.name (List.mem_cons_of_mem _ (List.mem_map_of_mem hp))))
  have hresult : Atomic s.resultWord := by
    rw [resultWord]
    cases s.result? with
    | none => exact .of_name (by decide)
    | some k => exact atomic_keyword k
  have hrest : Legible (s.resultWord ++ (" " ++ s.name ++ "(" ++
      ", ".intercalate (s.parameters.map Parameter.text) ++ ")")) := by
    apply hresult.legible.append
    simp only [oneLine_append, and_assoc]
    exact ⟨by decide, hname, by decide, hparameters, by decide⟩
  rw [text_eq]
  cases s.qualifiers with
  | nil => exact hrest
  | cons q qs =>
    have hfirst : Legible (q.tag ++ " ") := by
      cases q
      exact ⟨by decide, 's', rfl, by decide⟩
    have hothers : OneLine (String.join (qs.map (·.tag ++ " "))) := by
      refine oneLine_join (List.forall_mem_map.2 fun q _ => ?_)
      cases q
      decide
    rw [List.map_cons, String.join_cons]
    exact (hfirst.append hothers).append hrest.1

theorem GridArray.legible {a : GridArray} (ha : a.Viewable) (hs : (Stmt.view a).OwnNamed) :
    Legible a.viewLine := by
  obtain ⟨es, hes, htext⟩ := exists_viewText ha
  have hname := oneLine_name (hs.names a.name (by simp [Stmt.ownNames]))
  have hkeyword := atomic_keyword a.element
  have hextents : OneLine (Expr.subscripts es) := by
    refine (Expr.AllNamed.subscripts es fun x hx => ?_).oneLine
    obtain ⟨e, he, hx⟩ := Expr.mem_nodesAll.1 hx
    obtain ⟨axis, -, haxis⟩ := forall₂_mem_right (mapM_eq_ok.1 hes) he
    exact named_allocated hs.exprs haxis x hx
  rw [htext]
  apply hkeyword.legible.append
  simp only [oneLine_append, and_assoc]
  exact ⟨by decide, hname, by decide, hextents, by decide, hkeyword.tame.oneLine, by decide,
    hextents, by decide, hname, by decide⟩

namespace Stmt

/-- All names that a statement shows are identifiers. -/
def Named (s : Stmt) : Prop := ∀ x ∈ s.nodes, x.OwnNamed

theorem named_iff {s : Stmt} : s.Named ↔ ∀ x ∈ s.nodes,
    (∀ n ∈ x.ownNames, Identifier.isValid n) ∧
      ∀ e ∈ x.shown, ∀ f ∈ e.nodes, ∀ n ∈ f.name?.toList, Identifier.isValid n := by
  simp only [Option.mem_toList]
  exact ⟨fun h x hx => ⟨(h x hx).names, (h x hx).exprs⟩, fun h x hx => ⟨(h x hx).1, (h x hx).2⟩⟩

instance (s : Stmt) : Decidable s.Named := decidable_of_iff _ named_iff.symm

/-- The head of a branch. -/
theorem legible_condition {c : Expr} (h : c.Named) : Legible s!"if ({c.text})" := by
  have hif : Legible "if (" := ⟨by decide, 'i', rfl, by decide⟩
  exact (hif.append h.oneLine).append (by decide)

theorem legible_declare {t : Scalar} (h : Identifier.isValid t.name) :
    Legible s!"{t.element.keyword} {t.name};" := by
  have hkeyword := (atomic_keyword t.element).legible
  have hname := oneLine_name h
  exact ((hkeyword.append (by decide)).append hname).append (by decide)

/-- The own lines of a statement whose names are identifiers. -/
theorem OwnNamed.legible {s : Stmt} (hs : s.OwnNamed) (hview : ∀ a, s = .view a → a.Viewable) :
    ∀ t ∈ s.ownTexts, Legible t := by
  have hopen : Legible "\x7b" := ⟨by decide, '\x7b', rfl, by decide⟩
  have hclose : Legible "\x7d" := ⟨by decide, '\x7d', rfl, by decide⟩
  have helse : Legible "else" := ⟨by decide, 'e', rfl, by decide⟩
  cases s with
  | assign target value =>
    have htarget : target.Named := hs.exprs _ (by simp [shown, Stmt.exprs])
    have hvalue : value.Named := hs.exprs _ (by simp [shown, Stmt.exprs])
    obtain ⟨htame, hstarts⟩ : Tame (Equation.line ⟨target, value⟩) ∧ _ :=
      Equation.tame_line htarget hvalue
    simpa [ownTexts] using ⟨htame.oneLine, hstarts⟩
  | declare t => simpa [ownTexts] using legible_declare (hs.names t.name (by simp [ownNames]))
  | view a => simpa [ownTexts] using GridArray.legible (hview a rfl) hs
  | block ss => simp [ownTexts]
  | loop h body => simpa [ownTexts, hopen, hclose] using LoopHead.legible hs
  | when c body =>
    simpa [ownTexts, hopen, hclose] using
      legible_condition (hs.exprs c (by simp [shown, Stmt.exprs]))
  | ifElse c t e =>
    simpa [ownTexts, hopen, hclose, helse] using
      legible_condition (hs.exprs c (by simp [shown, Stmt.exprs]))
  | kernel signature body => simpa [ownTexts, hopen, hclose] using Signature.legible hs

end Stmt

end GridKernel
