import GridKernel.Proofs.Regrouping

/-! Texts of expressions. The text of an expression breaks up into the tokens of its parts, unless a
minus sign stands in front of an operand that begins with one. -/
namespace GridKernel

open Source

theorem Binary64.exact_abs {x : Binary64} (h : x.isFinite) : x.abs.exact = some x.magnitude := by
  have hfinite : x.abs.isFinite := by rw [isFinite_abs, h]
  rw [exact, if_pos hfinite, isNegative_abs, mantissa_abs, exponent_abs]
  simp [magnitude]

namespace Source

/-! The characters of texts. -/

theorem toList_grouped (parens : Bool) (text : String) : (Expr.grouped parens text).toList =
    if parens then '(' :: (text.toList ++ [')']) else text.toList := by
  cases parens with
  | true =>
    show ("(" ++ text ++ ")").toList = _
    simp
  | false => rfl

theorem toList_toString_int (n : Int) : (toString n).toList =
    (if decide (n < 0) then ['-'] else []) ++ Nat.toDigits 10 n.natAbs := by
  cases n with
  | ofNat m => simp [Int.toString_eq_repr, Int.repr, Nat.repr_eq_ofList_toDigits]
  | negSucc m => simp [Int.toString_eq_repr, Int.repr, Nat.repr_eq_ofList_toDigits]

theorem head_toDigits_isDigit (n : Nat) : ∃ c ∈ (Nat.toDigits 10 n).head?, c.isDigit := by
  obtain ⟨c, cs, hcs⟩ := List.exists_cons_of_ne_nil (Nat.toDigits_ne_nil (b := 10) (n := n))
  refine ⟨c, by rw [hcs]; rfl, Json.Numeral.isDigit_toDigits (n := n) c ?_⟩
  rw [hcs]
  exact List.mem_cons_self

/-- A text begins with a minus sign, or with something that no minus sign goes on with. -/
def Begins (minus : Bool) (text : List Char) : Prop :=
  ∃ c ∈ text.head?, if minus then c = '-' else c = '(' ∨ Identifier.isPart c

theorem begins_name {s : String} (h : Identifier.isValid s) (rest : List Char) :
    Begins false (s.toList ++ rest) := by
  obtain ⟨c, cs, hs, hc, -⟩ := Identifier.isValid_iff.1 h
  exact ⟨c, by rw [hs]; rfl, .inr (Identifier.isPart_of_isStart hc)⟩

theorem begins_signed (negative : Bool) {cs : List Char} (h : ∃ c ∈ cs.head?, c.isDigit) :
    Begins negative ((if negative then ['-'] else []) ++ cs) := by
  obtain ⟨c, hc, hdigit⟩ := h
  cases negative with
  | true => exact ⟨'-', rfl, rfl⟩
  | false => exact ⟨c, hc, .inr (isPart_of_isDigit hdigit)⟩

/-- A text that stands for tokens in front of whatever is apart from it, unless two minus signs meet
in it, which then gives a decrement. -/
structure Spells (text : List Char) (meet : Prop) (ts : List Token) : Prop where
  lex_append : ¬ meet → ∀ rest, Apart rest → lex (text ++ rest) = (lex rest).map (ts ++ ·)
  decrement : meet → ∀ rest us, Apart rest → lex (text ++ rest) = some us → .mark "--" ∈ us

section Spelling
variable {text text' : List Char} {meet meet' : Prop} {ts us : List Token}

theorem spells_of_lex (h : ∀ rest, Apart rest → lex (text ++ rest) = (lex rest).map (ts ++ ·)) :
    Spells text False ts :=
  ⟨fun _ => h, False.elim⟩

theorem Spells.congr (h : Spells text meet ts) (hmeet : meet ↔ meet') : Spells text meet' ts :=
  ⟨fun hnot => h.lex_append (mt hmeet.1 hnot), fun hyes => h.decrement (hmeet.2 hyes)⟩

theorem spells_nil : Spells [] False [] :=
  spells_of_lex fun rest _ => by simp

/-- A text goes on with another one that is apart from it. -/
theorem Spells.append (h : Spells text meet ts) (h' : Spells text' meet' us)
    (hapart : ∀ rest, Apart rest → Apart (text' ++ rest)) :
    Spells (text ++ text') (meet ∨ meet') (ts ++ us) where
  lex_append hmeet rest hrest := by
    obtain ⟨hleft, hright⟩ := not_or.1 hmeet
    rw [List.append_assoc, h.lex_append hleft _ (hapart rest hrest),
      h'.lex_append hright rest hrest]
    cases lex rest <;> simp
  decrement hmeet rest vs hrest hvs := by
    rw [List.append_assoc] at hvs
    by_cases hleft : meet
    · exact h.decrement hleft _ vs (hapart rest hrest) hvs
    · rw [h.lex_append hleft _ (hapart rest hrest)] at hvs
      obtain ⟨ws, hws, rfl⟩ := Option.map_eq_some_iff.1 hvs
      exact List.mem_append_right ts
        (h'.decrement (hmeet.resolve_left hleft) rest ws hrest hws)

/-- A mark goes in front of a text. -/
theorem Spells.cons (h : Spells text meet ts) (front : List Char) {t : Token}
    (hfront : ∀ rest, lex (front ++ (text ++ rest)) = (lex (text ++ rest)).map (t :: ·)) :
    Spells (front ++ text) meet (t :: ts) where
  lex_append hmeet rest hrest := by
    rw [List.append_assoc, hfront, h.lex_append hmeet rest hrest]
    cases lex rest <;> rfl
  decrement hmeet rest us hrest hus := by
    rw [List.append_assoc, hfront] at hus
    obtain ⟨vs, hvs, rfl⟩ := Option.map_eq_some_iff.1 hus
    exact List.mem_cons_of_mem t (h.decrement hmeet rest vs hrest hvs)

theorem spells_name {s : String} (h : Identifier.isValid s) :
    Spells s.toList False [.name s] :=
  spells_of_lex fun _ => lex_name h

theorem spells_number {cs : List Char} {q : ℚ} (hdigit : ∃ c ∈ cs.head?, c.isDigit)
    (hcs : ∀ c ∈ cs, isNumberPart c) (hq : constant? cs = some q) :
    Spells cs False [.number q] :=
  spells_of_lex fun _ => lex_number hdigit hcs hq

theorem Spells.parenthesized (h : Spells text meet ts) :
    Spells ('(' :: (text ++ [')'])) meet (.mark "(" :: (ts ++ [.mark ")"])) := by
  have hclose : Spells [')'] False [.mark ")"] := spells_of_lex fun rest _ => lex_close rest
  have hboth := h.append hclose fun rest _ => apart_cons rest (by decide)
  exact (hboth.cons ['('] fun rest => lex_open _).congr (by simp)

/-- A text in brackets stands in front of what is apart from it. -/
theorem Spells.subscript (h : Spells text meet ts) (h' : Spells text' meet' us)
    (hapart : ∀ rest, Apart rest → Apart (text' ++ rest)) :
    Spells ('[' :: (text ++ [']'] ++ text')) (meet ∨ meet')
      (.mark "[" :: (ts ++ [.mark "]"] ++ us)) := by
  have hclose : Spells [']'] False [.mark "]"] := spells_of_lex fun rest _ => lex_closeSubscript rest
  have hboth := h.append hclose fun rest _ => apart_cons rest (by decide)
  have hall := (hboth.append h' hapart).cons ['['] fun rest => lex_openSubscript _
  exact hall.congr (by simp)

theorem lex_operator (op : BinaryOp) (cs : List Char) :
    lex (' ' :: (op.symbol.toList ++ ' ' :: cs)) = (lex cs).map (.mark op.symbol :: ·) := by
  have hblank : (lex (' ' :: cs)).map (Token.mark op.symbol :: ·) =
      (lex cs).map (.mark op.symbol :: ·) := by rw [lex_blank]
  rw [lex_blank, ← hblank]
  cases op with
  | eq => exact lex_of_punctuator? ['='] (by decide) rfl rfl
  | ne => exact lex_of_punctuator? ['='] (by decide) rfl rfl
  | _ => exact lex_of_punctuator? [] (by decide) rfl rfl

/-- Blanks around an operator keep it from its operands. -/
theorem Spells.operator (h : Spells text meet ts) (op : BinaryOp) (h' : Spells text' meet' us) :
    Spells (text ++ (' ' :: (op.symbol.toList ++ [' ']) ++ text')) (meet ∨ meet')
      (ts ++ (.mark op.symbol :: us)) := by
  apply h.append
  · apply h'.cons (' ' :: (op.symbol.toList ++ [' ']))
    intro rest
    rw [← lex_operator]
    simp
  · intro rest _
    exact apart_cons _ (by decide)

/-- A minus sign in front of a text that begins with none. -/
theorem Spells.minus (h : Spells text meet ts) (hbegins : Begins false text) :
    Spells ('-' :: text) meet (.mark "-" :: ts) := by
  obtain ⟨c, hc, hfirst⟩ := hbegins
  obtain ⟨tail, rfl⟩ : ∃ tail, text = c :: tail := ⟨text.tail, (List.cons_head?_tail hc).symm⟩
  apply h.cons ['-']
  intro rest
  apply lex_minus
  rintro d ⟨⟩
  rcases hfirst with rfl | hpart
  · decide
  · exact ⟨ne_of_isPart hpart rfl, ne_of_isPart hpart rfl, ne_of_isPart hpart rfl⟩

/-- Two minus signs in a row are no sign of a number. -/
theorem spells_decrement (text : List Char) (ts : List Token) :
    Spells ('-' :: '-' :: text) True ts where
  lex_append hmeet := absurd trivial hmeet
  decrement _ rest us _ hus := by
    rw [List.cons_append, List.cons_append, lex_decrement] at hus
    obtain ⟨vs, -, rfl⟩ := Option.map_eq_some_iff.1 hus
    exact List.mem_cons_self

/-- A sign and the digits of a number. -/
theorem spells_signed (negative : Bool) {cs : List Char} {q : ℚ}
    (hdigit : ∃ c ∈ cs.head?, c.isDigit) (hcs : ∀ c ∈ cs, isNumberPart c)
    (hq : constant? cs = some q) :
    Spells ((if negative then ['-'] else []) ++ cs) False (signedTokens negative q) := by
  have hnumber := spells_number hdigit hcs hq
  cases negative with
  | true => exact hnumber.minus (begins_signed false hdigit)
  | false => exact hnumber

theorem spells_int (n : Int) :
    Spells (toString n).toList False (signedTokens (decide (n < 0)) n.natAbs) := by
  rw [toList_toString_int]
  exact spells_signed _ (head_toDigits_isDigit _)
    (fun c hc => isNumberPart_of_isDigit (Json.Numeral.isDigit_toDigits c hc))
    (constant?_toDigits n.natAbs)

theorem spells_float {x : Binary64} (h : x.isFinite) :
    Spells x.literal.toList False (signedTokens x.isNegative x.magnitude) := by
  obtain ⟨whole, fraction, htext, hrounds⟩ := Binary64.exists_literal h
  rw [htext]
  apply spells_signed _ hrounds.head_isDigit
  · intro d hd
    rcases List.mem_append.1 hd with hd | hd
    · exact isNumberPart_of_isDigit (hrounds.digits d (List.mem_append_left _ hd))
    rcases List.mem_cons.1 hd with rfl | hd
    · rfl
    · exact isNumberPart_of_isDigit (hrounds.digits d (List.mem_append_right _ hd))
  · rw [constant?_rounds hrounds, Binary64.exact_abs h]

theorem spells_grouped {text : String} (h : Spells text.toList meet ts) (parens : Bool) :
    Spells (Expr.grouped parens text).toList meet (parenthesized parens ts) := by
  rw [toList_grouped]
  cases parens with
  | true => exact h.parenthesized
  | false => exact h

end Spelling

end Source

namespace Expr

mutual

/-- Names are identifiers and floating literals are finite. -/
def Printable : Expr → Prop
  | int _ => True
  | float x => x.isFinite
  | symbol name => Identifier.isValid name
  | scalar s => Identifier.isValid s.name
  | dim d => Identifier.isValid d.name
  | size name => Identifier.isValid name
  | access a indices => Identifier.isValid a.name ∧ AllPrintable indices
  | neg e => e.Printable
  | binary _ l r => l.Printable ∧ r.Printable
termination_by structural e => e

def AllPrintable : List Expr → Prop
  | [] => True
  | e :: es => e.Printable ∧ AllPrintable es
termination_by structural es => es

end

/-- Whether the text of an operand begins with a minus sign. -/
def leads : Expr → Bool
  | int n => decide (n.toInt < 0)
  | float x => x.isNegative
  | neg _ => true
  | _ => false

mutual

/-- Somewhere a minus sign stands in front of an operand that begins with one. -/
def SignsMeet : Expr → Prop
  | access _ indices => AnySignsMeet indices
  | neg e => e.leads ∨ e.SignsMeet
  | binary _ l r => l.SignsMeet ∨ r.SignsMeet
  | _ => False
termination_by structural e => e

def AnySignsMeet : List Expr → Prop
  | [] => False
  | e :: es => e.SignsMeet ∨ AnySignsMeet es
termination_by structural es => es

end

variable {e : Expr}

theorem isValid_size {name : String} (h : Identifier.isValid name) :
    Identifier.isValid (name ++ "_size") := by
  apply Identifier.isValid_append h
  have hsize : "_size".toList = ['_', 's', 'i', 'z', 'e'] := rfl
  simp only [hsize, List.forall_mem_cons]
  exact ⟨rfl, rfl, rfl, rfl, rfl, List.forall_mem_nil _⟩

/-- The text of an operand begins with a minus sign where the operand does. -/
theorem begins_operand (h : e.Printable) :
    Begins e.leads (grouped e.op?.isSome e.text).toList := by
  have hname {s : String} (hs : Identifier.isValid s) : Begins false s.toList := by
    simpa using begins_name hs []
  cases e with
  | int n =>
    show Begins _ (toString n.toInt).toList
    rw [toList_toString_int]
    exact begins_signed _ (head_toDigits_isDigit _)
  | float x =>
    obtain ⟨whole, fraction, htext, hrounds⟩ := Binary64.exists_literal h
    show Begins _ x.literal.toList
    rw [htext]
    exact begins_signed _ hrounds.head_isDigit
  | symbol name => exact hname h
  | scalar s => exact hname h
  | dim d => exact hname h
  | size name => exact hname (isValid_size h)
  | access a indices =>
    show Begins _ (a.name ++ subscripts indices).toList
    rw [String.toList_append]
    exact begins_name h.1 _
  | neg e =>
    refine ⟨'-', ?_, rfl⟩
    show '-' ∈ ("-" ++ grouped e.op?.isSome e.text).toList.head?
    simp
  | binary op l r =>
    rw [toList_grouped]
    exact ⟨'(', rfl, .inl rfl⟩

/-- A minus sign in front of an operand. -/
theorem spells_neg (hprintable : e.Printable) (h : Spells e.text.toList e.SignsMeet e.tokens) :
    Spells (neg e).text.toList (neg e).SignsMeet (neg e).tokens := by
  have htext : (neg e).text.toList = '-' :: (grouped e.op?.isSome e.text).toList := by
    show ("-" ++ grouped e.op?.isSome e.text).toList = _
    simp
  have hoperand := spells_grouped h e.op?.isSome
  have hbegins := begins_operand hprintable
  rw [htext]
  show Spells _ (e.leads ∨ e.SignsMeet) _
  cases hleads : e.leads with
  | true =>
    rw [hleads] at hbegins
    obtain ⟨c, hc, rfl⟩ := hbegins
    rw [← List.cons_head?_tail hc]
    exact (spells_decrement _ _).congr (by simp)
  | false =>
    rw [hleads] at hbegins
    exact (hoperand.minus hbegins).congr (by simp)

mutual

/-- The text of an expression spells its tokens, unless minus signs meet in it. -/
theorem text_spells (e : Expr) (h : e.Printable) : Spells e.text.toList e.SignsMeet e.tokens := by
  cases e with
  | int n => exact spells_int n.toInt
  | float x => exact spells_float h
  | symbol name => exact spells_name h
  | scalar s => exact spells_name h
  | dim d => exact spells_name h
  | size name => exact spells_name (isValid_size h)
  | access a indices =>
    obtain ⟨hindices, hapart⟩ := subscripts_spell indices h.2
    show Spells (a.name ++ subscripts indices).toList _ _
    rw [String.toList_append]
    exact ((spells_name h.1).append hindices hapart).congr (by simp [SignsMeet])
  | neg e => exact spells_neg h (text_spells e h)
  | binary op l r =>
    have hl := spells_grouped (text_spells l h.1) (needsParens op l false)
    have hr := spells_grouped (text_spells r h.2) (needsParens op r true)
    have h := hl.operator op hr
    show Spells (grouped (needsParens op l false) l.text ++ " " ++ op.symbol ++ " " ++
      grouped (needsParens op r true) r.text).toList (l.SignsMeet ∨ r.SignsMeet)
      (_ ++ [.mark op.symbol] ++ _)
    simpa using h
termination_by structural e

theorem subscripts_spell (es : List Expr) (h : AllPrintable es) :
    Spells (subscripts es).toList (AnySignsMeet es) (subscriptTokens es) ∧
      ∀ rest, Apart rest → Apart ((subscripts es).toList ++ rest) := by
  cases es with
  | nil => exact ⟨spells_nil, fun _ hrest => hrest⟩
  | cons e es =>
    obtain ⟨hes, hapart⟩ := subscripts_spell es h.2
    have htext : (subscripts (e :: es)).toList =
        '[' :: (e.text.toList ++ [']'] ++ (subscripts es).toList) := by
      show ("[" ++ e.text ++ "]" ++ subscripts es).toList = _
      simp
    rw [htext]
    exact ⟨(text_spells e h.1).subscript hes hapart, fun _ _ => apart_cons _ (by decide)⟩
termination_by structural es

end

/-- The text of an expression reads as its reading unless minus signs meet in it, which make it
no expression. -/
theorem read?_text (h : e.Printable) :
    (e.SignsMeet → read? e.text = none) ∧ (¬ e.SignsMeet → read? e.text = some e.reading) := by
  have hspells := text_spells e h
  constructor
  · intro hmeet
    unfold read?
    cases hlex : lex e.text.toList with
    | none => rfl
    | some ts =>
      have hmem := hspells.decrement hmeet [] ts apart_nil (by rw [List.append_nil, hlex])
      rw [Option.bind_some, run_of_decrement hmem]
      rfl
  · intro hmeet
    have hlex := hspells.lex_append hmeet [] apart_nil
    rw [List.append_nil, lex_nil] at hlex
    unfold read?
    rw [hlex, Option.map_some, Option.bind_some, List.append_nil]
    exact finish_run_tokens e

end Expr

end GridKernel
