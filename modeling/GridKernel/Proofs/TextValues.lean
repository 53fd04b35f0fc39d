import GridKernel.Proofs.ExpressionTexts

/-! Values of what texts of expressions read as. Where the operators of a right operand that lost
its parentheses regroup with the operator in front of it, the text keeps the value of the
expression; a product with a remainder and a comparison of comparisons do not regroup. -/
namespace GridKernel

open Source

namespace BinaryOp

/-- The operands of two operators may be grouped from either side. -/
def Regroups (op o : BinaryOp) : Prop := ∀ x y z,
  (o.exact y z).bind (op.exact x) = (op.exact x y).bind (o.exact · z)

variable {op o : BinaryOp}

theorem regroups_add_add : add.Regroups add := by
  intro x y z
  simp [exact, add_assoc]

theorem regroups_add_sub : add.Regroups sub := by
  intro x y z
  simp [exact, add_sub_assoc]

theorem regroups_mul_mul : mul.Regroups mul := by
  intro x y z
  simp [exact, mul_assoc]

theorem regroups_mul_div : mul.Regroups div := by
  intro x y z
  by_cases hz : z = 0
  · simp [exact, hz]
  · simp [exact, hz, mul_div_assoc]

theorem not_regroups_mul_rem : ¬ mul.Regroups rem := by
  intro h
  have := h 2 3 5
  norm_num [exact] at this

theorem not_regroups_eq (ho : o = eq ∨ o = ne) : ¬ eq.Regroups o := by
  rintro h
  rcases ho with rfl | rfl
  · have := h 0 1 2
    norm_num [exact] at this
  · have := h 2 2 2
    norm_num [exact] at this

theorem not_regroups_ne (ho : o = eq ∨ o = ne) : ¬ ne.Regroups o := by
  rintro h
  rcases ho with rfl | rfl
  · have := h 2 2 2
    norm_num [exact] at this
  · have := h 2 1 1
    norm_num [exact] at this

theorem ungroups_cases (h : op.ungroups o) : op = add ∧ (o = add ∨ o = sub) ∨
    op = mul ∧ (o = mul ∨ o = div ∨ o = rem) ∨ (op = eq ∨ op = ne) ∧ (o = eq ∨ o = ne) := by
  revert h
  cases op <;> cases o <;> decide

/-- Of the operators whose right operands lose their parentheses, sums and products without
remainders regroup. -/
theorem regroups_iff (h : op.ungroups o) : op.Regroups o ↔ op = add ∨ op = mul ∧ o ≠ rem := by
  rcases ungroups_cases h with ⟨rfl, rfl | rfl⟩ | ⟨rfl, rfl | rfl | rfl⟩ | ⟨rfl | rfl, ho⟩
  · exact iff_of_true regroups_add_add (by decide)
  · exact iff_of_true regroups_add_sub (by decide)
  · exact iff_of_true regroups_mul_mul (by decide)
  · exact iff_of_true regroups_mul_div (by decide)
  · exact iff_of_false not_regroups_mul_rem (by decide)
  · exact iff_of_false (not_regroups_eq ho) (by simp)
  · exact iff_of_false (not_regroups_ne ho) (by simp)

end BinaryOp

namespace Source

/-- Values of variables, and of elements of arrays at their indices. -/
abbrev Naming := String → List ℚ → Option ℚ

namespace Tree

mutual

def value (ν : Naming) : Tree → Option ℚ
  | number q => some q
  | named s indices => (valueAll ν indices).bind (ν s)
  | neg t => (t.value ν).map (-·)
  | binary op l r => (l.value ν).bind fun x => (r.value ν).bind (op.exact x)
termination_by structural t => t

def valueAll (ν : Naming) : List Tree → Option (List ℚ)
  | [] => some []
  | t :: ts => (t.value ν).bind fun x => (valueAll ν ts).map (x :: ·)
termination_by structural ts => ts

end

/-- The operators that a tree gives up to an operator in front of it regroup with it. -/
def Regroups (op : BinaryOp) : Tree → Prop
  | binary o l _ => op.ungroups o → op.Regroups o ∧ l.Regroups op
  | _ => True

variable {ν : Naming}

/-- Regrouping keeps the value where all operators regroup. -/
theorem value_rotate {t u : Tree} {op : BinaryOp} (h : u.Regroups op) :
    (t.rotate op u).value ν = (binary op t u).value ν := by
  fun_induction Tree.rotate t op u with
  | case1 o l r ho ih =>
    obtain ⟨hregroups, hl⟩ := h ho
    simp only [value, ih hl]
    cases t.value ν with
    | none => rfl
    | some x =>
      cases l.value ν with
      | none => rfl
      | some y =>
        cases r.value ν with
        | none => simp
        | some z => simpa using (hregroups x y z).symm
  | case2 => rfl
  | case3 => rfl

end Tree

end Source

/-- The value of what a leaf refers to, at indices. -/
def Valuation.leaf (v : Valuation) : Expr → List ℚ → Option ℚ
  | .access a _, qs => v.cell a qs
  | e, _ => e.exact v

namespace Expr

/-- The printed name of a leaf with the number of its subscripts. -/
def label? : Expr → Option (String × Nat)
  | symbol name => some (name, 0)
  | scalar s => some (s.name, 0)
  | dim d => some (d.name, 0)
  | size name => some (name ++ "_size", 0)
  | access a indices => some (a.name, indices.length)
  | _ => none

/-- What a leaf refers to, apart from its subscripts. -/
def entity : Expr → Expr
  | access a _ => access a []
  | e => e

/-- Leaves that refer to different things print differently. -/
def LeavesDiffer (e : Expr) : Prop :=
  ∀ f ∈ e.nodes, ∀ g ∈ e.nodes, f.label?.isSome → f.label? = g.label? → f.entity = g.entity

mutual

/-- The operators of right operands that lose their parentheses regroup. -/
def KeepsGroups : Expr → Prop
  | access _ indices => AllKeepGroups indices
  | neg e => e.KeepsGroups
  | binary op l r => l.KeepsGroups ∧ r.KeepsGroups ∧ r.reading.Regroups op
  | _ => True
termination_by structural e => e

def AllKeepGroups : List Expr → Prop
  | [] => True
  | e :: es => e.KeepsGroups ∧ AllKeepGroups es
termination_by structural es => es

end

end Expr

/-- The values that a valuation gives to the printed names of an expression. -/
def Valuation.naming (v : Valuation) (e : Expr) : Naming := fun s qs =>
  (e.nodes.find? fun f => f.label? == some (s, qs.length)).bind (v.leaf · qs)

namespace Expr

variable {e f g : Expr} {v : Valuation}

theorem leaf_of_entity (h : f.entity = g.entity) (qs : List ℚ) : v.leaf f qs = v.leaf g qs := by
  have hentity (e : Expr) : v.leaf e qs = v.leaf e.entity qs := by cases e <;> rfl
  rw [hentity f, h, ← hentity g]

/-- A printed name has the value of the leaf that prints it. -/
theorem naming_eq (h : e.LeavesDiffer) (hf : f ∈ e.nodes) {s : String} {qs : List ℚ}
    (hlabel : f.label? = some (s, qs.length)) : v.naming e s qs = v.leaf f qs := by
  unfold Valuation.naming
  cases hfind : e.nodes.find? fun f => f.label? == some (s, qs.length) with
  | none =>
    have := List.find?_eq_none.1 hfind f hf
    simp [hlabel] at this
  | some g =>
    have hg := List.mem_of_find?_eq_some hfind
    have hglabel := List.find?_some hfind
    rw [beq_iff_eq] at hglabel
    exact leaf_of_entity (h g hg f hf (by simp [hglabel]) (by rw [hglabel, hlabel])) qs

theorem length_exactAll {es : List Expr} {qs : List ℚ} (h : exactAll v es = some qs) :
    qs.length = es.length := by
  induction es generalizing qs with
  | nil =>
    obtain rfl := Option.some.inj h
    rfl
  | cons e es ih =>
    obtain ⟨x, -, h⟩ := Option.bind_eq_some_iff.1 h
    obtain ⟨rs, hrs, rfl⟩ := Option.map_eq_some_iff.1 h
    simp [ih hrs]

theorem value_signedTree (ν : Naming) (negative : Bool) (q : ℚ) :
    (signedTree negative q).value ν = some ((if negative then -1 else 1) * q) := by
  cases negative <;> simp [signedTree, Tree.value]

theorem sign_mul_natAbs (n : Int) :
    (if decide (n < 0) then (-1 : ℚ) else 1) * n.natAbs = n := by
  rw [Nat.cast_natAbs]
  by_cases hn : n < 0
  · simp [hn, abs_of_neg hn]
  · simp [hn, abs_of_nonneg (not_lt.1 hn)]

mutual

/-- What the tokens read as has the value of the expression where all groups are kept. -/
theorem value_reading (f : Expr) (hnames : e.LeavesDiffer) (hsub : f.nodes ⊆ e.nodes)
    (hprintable : f.Printable) (hgroups : f.KeepsGroups) :
    f.reading.value (v.naming e) = f.exact v := by
  have hname {s : String} (hlabel : f.label? = some (s, 0)) (hself : f ∈ f.nodes) :
      (Tree.named s []).value (v.naming e) = v.leaf f [] :=
    naming_eq hnames (hsub hself) hlabel
  cases f with
  | int n =>
    show (signedTree _ _).value _ = _
    rw [value_signedTree]
    exact congrArg some (sign_mul_natAbs n.toInt)
  | float x =>
    have hfinite : x.isFinite := hprintable
    show (signedTree _ _).value _ = x.exact
    rw [value_signedTree, Binary64.exact, if_pos hfinite]
    rfl
  | symbol name => exact hname rfl List.mem_cons_self
  | scalar s => exact hname rfl List.mem_cons_self
  | dim d => exact hname rfl List.mem_cons_self
  | size name => exact hname rfl List.mem_cons_self
  | access a indices =>
    have hself : access a indices ∈ e.nodes := hsub List.mem_cons_self
    have hindices := value_readingAll indices hnames (fun g hg => hsub (List.mem_cons_of_mem _ hg))
      hprintable.2 hgroups
    show ((Tree.valueAll _ (readingAll indices)).bind _) = (exactAll v indices).bind _
    rw [hindices]
    cases hqs : exactAll v indices with
    | none => rfl
    | some qs =>
      exact naming_eq hnames hself (by rw [length_exactAll hqs]; rfl)
  | neg f =>
    have hf := value_reading f hnames (fun g hg => hsub (List.mem_cons_of_mem _ hg)) hprintable
      hgroups
    show (f.reading.value _).map _ = (f.exact v).map _
    rw [hf]
  | binary op l r =>
    have hl := value_reading l hnames
      (fun g hg => hsub (List.mem_cons_of_mem _ (List.mem_append_left _ hg))) hprintable.1 hgroups.1
    have hr := value_reading r hnames
      (fun g hg => hsub (List.mem_cons_of_mem _ (List.mem_append_right _ hg))) hprintable.2
      hgroups.2.1
    show (l.reading.rotate op r.reading).value _ = (l.exact v).bind _
    rw [Tree.value_rotate hgroups.2.2, ← hl, ← hr]
    rfl
termination_by structural f

theorem value_readingAll (fs : List Expr) (hnames : e.LeavesDiffer) (hsub : nodesAll fs ⊆ e.nodes)
    (hprintable : AllPrintable fs) (hgroups : AllKeepGroups fs) :
    Tree.valueAll (v.naming e) (readingAll fs) = exactAll v fs := by
  cases fs with
  | nil => rfl
  | cons f fs =>
    have hf := value_reading f hnames (fun g hg => hsub (List.mem_append_left _ hg)) hprintable.1
      hgroups.1
    have hfs := value_readingAll fs hnames (fun g hg => hsub (List.mem_append_right _ hg))
      hprintable.2 hgroups.2
    show (f.reading.value _).bind _ = (f.exact v).bind _
    rw [hf, ← hfs]
termination_by structural fs

end

/-- The text of an expression is well formed exactly when no two minus signs meet in it. It then
reads with the operands of each right operand that lost its parentheses regrouped to the left, and
keeps the value of the expression under every valuation if the operators there regroup: those of
sums do, those of products unless one is a remainder, those of comparisons never. -/
theorem text_reads_regrouped (h : e.Printable) :
    (e.SignsMeet → read? e.text = none) ∧ (¬ e.SignsMeet → read? e.text = some e.reading) ∧
      (e.LeavesDiffer → e.KeepsGroups → ∀ v : Valuation,
        e.reading.value (v.naming e) = e.exact v) ∧
      ∀ op o : BinaryOp, op.ungroups o → (op.Regroups o ↔ op = .add ∨ op = .mul ∧ o ≠ .rem) := by
  obtain ⟨hmeet, hread⟩ := read?_text h
  exact ⟨hmeet, hread, fun hnames hgroups v =>
    value_reading e hnames (List.Subset.refl _) h hgroups, fun _ _ => BinaryOp.regroups_iff⟩

/-- A product with a remainder reads as the remainder of the product, 1 in place of 6 where the
factors are 2 and 3 and the divisor is 5, and a negation of a negation reads as nothing. A product
with a quotient keeps its value. -/
theorem text_reads_regrouped_product :
    let a := scalar ⟨"a", .float64⟩
    let b := scalar ⟨"b", .float64⟩
    let c := scalar ⟨"c", .float64⟩
    let e := binary .mul a (binary .rem b c)
    let f := binary .mul a (binary .div b c)
    let v : Valuation := ⟨fun _ => none,
      fun s => if s.name = "a" then some 2 else if s.name = "b" then some 3 else some 5,
      fun _ => none, fun _ => none, fun _ _ => none⟩
    e.text = "a * b % c" ∧ read? e.text = some e.reading ∧
      e.reading = .binary .rem (.binary .mul (.named "a" []) (.named "b" [])) (.named "c" []) ∧
      e.exact v = some 6 ∧ e.reading.value (v.naming e) = some 1 ∧
      read? (neg (neg a)).text = none ∧
      ∀ w : Valuation, f.reading.value (w.naming f) = f.exact w := by
  intro a b c e f v
  have hvalid : Identifier.isValid "a" ∧ Identifier.isValid "b" ∧ Identifier.isValid "c" := by
    decide
  have hprintable : e.Printable := hvalid
  have hvalue : v.scalar ⟨"a", .float64⟩ = some 2 ∧ v.scalar ⟨"b", .float64⟩ = some 3 ∧
      v.scalar ⟨"c", .float64⟩ = some 5 := ⟨rfl, rfl, rfl⟩
  obtain ⟨ha, hb, hc⟩ := hvalue
  refine ⟨by decide, (text_reads_regrouped hprintable).2.1 ?_, rfl, ?_, ?_,
    (text_reads_regrouped (e := neg (neg a)) hvalid.1).1 (.inl rfl),
    (text_reads_regrouped (e := f) hvalid).2.2.1 ?_ ?_⟩
  · simp [e, a, b, c, SignsMeet]
  · norm_num [e, a, b, c, exact, BinaryOp.exact, ha, hb, hc]
  · show (Tree.binary .rem (.binary .mul (.named "a" []) (.named "b" [])) (.named "c" [])).value _ = _
    have hname : v.naming e "a" [] = some 2 ∧ v.naming e "b" [] = some 3 ∧
        v.naming e "c" [] = some 5 := ⟨rfl, rfl, rfl⟩
    norm_num [Tree.value, Tree.valueAll, BinaryOp.exact, hname]
  · intro g hg g' hg' hlabel hsame
    have hnodes : f.nodes = [f, a, binary .div b c, b, c] := rfl
    simp only [hnodes, List.mem_cons, List.not_mem_nil, or_false] at hg hg'
    rcases hg with rfl | rfl | rfl | rfl | rfl <;>
      rcases hg' with rfl | rfl | rfl | rfl | rfl <;>
      simp_all [a, b, c, f, label?]
  · exact ⟨trivial, ⟨trivial, trivial, trivial⟩, fun _ => ⟨BinaryOp.regroups_mul_div, trivial⟩⟩

end Expr

end GridKernel
