import GridKernel.Proofs.Binary64Fields
import GridKernel.Proofs.ExactValues
import GridKernel.Proofs.Overflows

/-! Folded expressions. An expression is rebuilt bottom-up with the operators that fold literals.
That stops only where a literal computed on the way is no word; otherwise the result has the exact
value and the names of the expression, and rebuilding it again changes nothing. -/
namespace GridKernel

/-- The literal that an operator computes from its operands: the sum, difference or product of two
literals, or the magnitude of a negative literal that is added or subtracted. -/
def BinaryOp.literal? (op : BinaryOp) (e f : Expr) : Option Int :=
  match op, e.int?, f.int? with
  | add, some m, some n => some (m.toInt + n.toInt)
  | sub, some m, some n => some (m.toInt - n.toInt)
  | mul, some m, some n => some (m.toInt * n.toInt)
  | add, none, some n | sub, none, some n => if n < 0 then some (-n.toInt) else none
  | _, _, _ => none

/-- A computation that stops exactly where a condition holds, and then with an overflow. -/
def OverflowsIff {α : Type} (x : Result α) (P : Prop) : Prop :=
  ∀ fault, x = .error fault ↔ fault = .overflow ∧ P

namespace OverflowsIff

variable {α β : Type} {x : Result α} {P Q : Prop}

theorem ok (a : α) : OverflowsIff (.ok a) False := by
  intro fault
  simp

theorem congr (h : OverflowsIff x P) (hPQ : P ↔ Q) : OverflowsIff x Q := by
  intro fault
  rw [h fault, hPQ]

/-- A chain of two steps stops in the first, or in the second after the first has gone through. -/
theorem bind {f : α → Result β} (hx : OverflowsIff x P)
    (hf : ∀ a, x = .ok a → OverflowsIff (f a) Q) : OverflowsIff (x >>= f) (P ∨ Q) := by
  intro fault
  cases x with
  | error e =>
    obtain ⟨rfl, hP⟩ := (hx e).1 rfl
    simp [hP, eq_comm]
  | ok a =>
    have hP : ¬ P := fun hP => by simpa using (hx .overflow).2 ⟨rfl, hP⟩
    simpa [hP] using hf a rfl fault

theorem map {f : α → β} (hx : OverflowsIff x P) : OverflowsIff (f <$> x) P := by
  intro fault
  rw [map_eq_error, hx fault]

end OverflowsIff

theorem Word.int_overflowsIff (n : Int) : OverflowsIff (Word.int n) (¬ Fits n) := by
  intro fault
  unfold int Fits
  split <;> simp_all [eq_comm]

namespace BinaryOp

variable {op op' : BinaryOp} {e f : Expr} {n : Int64}

theorem literal?_int (hop : op.Opposite op') (he : e.int? = none) :
    op.literal? e (.int n) = if n < 0 then some (-n.toInt) else none := by
  rcases hop with ⟨rfl, rfl⟩ | ⟨rfl, rfl⟩ <;> simp [literal?, he]

/-- A literal that is added to another operand, or subtracted from one, stops the operator only where
its magnitude is computed and is no word. -/
theorem build_int_overflowsIff (hop : op.Opposite op') (he : e.int? = none) :
    OverflowsIff (op.build e (.int n)) (∃ k, op.literal? e (.int n) = some k ∧ ¬ Word.Fits k) := by
  rw [Expr.build_int hop he, literal?_int hop he]
  split
  · rename_i hzero
    exact (OverflowsIff.ok _).congr (by simp [eq_of_beq hzero])
  · split
    · have hmagnitude := (Word.int_overflowsIff (-n.toInt)).bind fun k _ =>
        OverflowsIff.ok (Expr.binary op' e (.int k))
      exact hmagnitude.congr (by simp)
    · exact (OverflowsIff.ok _).congr (by simp)

/-- An operator stops only where the literal that it computes is no word. -/
theorem build_overflowsIff :
    OverflowsIff (op.build e f) (∃ k, op.literal? e f = some k ∧ ¬ Word.Fits k) := by
  cases op with
  | add =>
    show OverflowsIff (e.add f) _
    unfold Expr.add
    split
    · exact (Word.int_overflowsIff _).map.congr (by simp [literal?])
    · rename_i n hint
      have hsum := build_int_overflowsIff (n := n) (.inl ⟨rfl, rfl⟩) (Expr.int?_eq_none.2 hint)
      rwa [Expr.build_int (.inl ⟨rfl, rfl⟩) (Expr.int?_eq_none.2 hint)] at hsum
    · rename_i hint
      exact (OverflowsIff.ok _).congr (by simp [literal?, Expr.int?_eq_none.2 hint])
    · rename_i hint _
      exact (OverflowsIff.ok _).congr (by simp [literal?, Expr.int?_eq_none.2 hint])
  | sub =>
    show OverflowsIff (e.sub f) _
    unfold Expr.sub
    split
    · exact (Word.int_overflowsIff _).map.congr (by simp [literal?])
    · rename_i n hint
      have hdifference :=
        build_int_overflowsIff (n := n) (.inr ⟨rfl, rfl⟩) (Expr.int?_eq_none.2 hint)
      rwa [Expr.build_int (.inr ⟨rfl, rfl⟩) (Expr.int?_eq_none.2 hint)] at hdifference
    · rename_i hint _
      exact (OverflowsIff.ok _).congr (by simp [literal?, Expr.int?_eq_none.2 hint])
  | mul =>
    show OverflowsIff (e.mul f) _
    unfold Expr.mul
    split
    · exact (Word.int_overflowsIff _).map.congr (by simp [literal?])
    · rename_i hint
      exact (OverflowsIff.ok _).congr (by simp [literal?, Expr.int?_eq_none.2 hint])
    · rename_i hint
      exact (OverflowsIff.ok _).congr (by simp [literal?, Expr.int?_eq_none.2 hint])
    · rename_i hint _
      exact (OverflowsIff.ok _).congr (by simp [literal?, Expr.int?_eq_none.2 hint])
  | _ => exact (OverflowsIff.ok _).congr (by simp [literal?])

end BinaryOp

theorem Expr.names_binary (op : BinaryOp) (e f : Expr) :
    (Expr.binary op e f).names = e.names ++ f.names := by
  rw [names, nodes, List.filterMap_cons_none rfl, List.filterMap_append]
  rfl

namespace Folded

variable {op : BinaryOp} {e f g : Expr}

theorem names (h : Folded op e f g) : g.names = e.names ++ f.names := by
  have hint (n : Int64) : (Expr.int n).names = [] := rfl
  cases h with
  | literals => simp [hint]
  | left => simp [hint]
  | right => simp [hint]
  | opposite => rw [Expr.names_binary, hint, hint]
  | kept => exact Expr.names_binary op e f

end Folded

namespace Expr

mutual

/-- An expression built again, operands first, with the operators that fold literals. -/
def rebuild : Expr → Result Expr
  | access a indices => access a <$> rebuildAll indices
  | neg e => do (← e.rebuild).negate
  | binary op l r => do op.build (← l.rebuild) (← r.rebuild)
  | e => .ok e
termination_by structural e => e

def rebuildAll : List Expr → Result (List Expr)
  | [] => .ok []
  | e :: es => do return (← e.rebuild) :: (← rebuildAll es)
termination_by structural es => es

end

/-- The literal that a node computes from its rebuilt operands is no word. -/
def LiteralOverflows : Expr → Prop
  | neg e => ∃ n, e.rebuild = .ok (int n) ∧ ¬ Word.Fits (-n.toInt)
  | binary op l r => ∃ l' r' k, l.rebuild = .ok l' ∧ r.rebuild = .ok r' ∧
      op.literal? l' r' = some k ∧ ¬ Word.Fits k
  | _ => False

/-- What rebuilding an expression keeps, and the form of its result. -/
structure Rebuilt (e f : Expr) : Prop where
  exact : ∀ v, f.exact v = e.exact v
  names : f.names = e.names
  normal : f.rebuild = .ok f

structure RebuiltAll (es fs : List Expr) : Prop where
  exact : ∀ v, exactAll v fs = exactAll v es
  names : (nodesAll fs).filterMap name? = (nodesAll es).filterMap name?
  normal : rebuildAll fs = .ok fs

variable {op : BinaryOp} {e f g l r : Expr} {es fs : List Expr} {fault : Fault}

theorem rebuilt_self (he : e.rebuild = .ok e) (h : e.rebuild = .ok f) : Rebuilt e f := by
  obtain rfl := Except.ok.inj (he.symm.trans h)
  exact ⟨fun _ => rfl, rfl, he⟩

theorem exact_neg_float (x : Binary64) (v : Valuation) :
    (float x.neg).exact v = (neg (float x)).exact v := by
  have hfinite : x.neg.isFinite = x.isFinite := by
    simp [Binary64.isFinite, Binary64.exponentField_neg]
  have hmantissa : x.neg.mantissa = x.mantissa := by
    simp [Binary64.mantissa, Binary64.exponentField_neg, Binary64.fraction_neg]
  have hexponent : x.neg.exponent = x.exponent := by
    simp [Binary64.exponent, Binary64.exponentField_neg]
  simp only [exact, Binary64.exact, hfinite, hmantissa, hexponent, Binary64.isNegative_neg]
  split
  · cases x.isNegative <;> simp
  · rfl

theorem rebuilt_negate (h : Rebuilt e f) (hg : f.negate = .ok g) : Rebuilt (neg e) g := by
  have hvalue (v : Valuation) : (neg f).exact v = (neg e).exact v := by
    rw [exact, exact, h.exact]
  have hnames : f.names = (neg e).names := h.names
  unfold negate at hg
  split at hg
  · obtain ⟨k, hk, rfl⟩ := map_eq_ok.1 hg
    constructor
    · intro v
      rw [← hvalue]
      simp [exact, Word.neg_eq_ok hk]
    · exact hnames
    · rfl
  · obtain rfl := Except.ok.inj hg
    constructor
    · intro v
      rw [← hvalue, exact_neg_float]
    · exact hnames
    · rfl
  · rename_i hint hfloat
    obtain rfl := Except.ok.inj hg
    constructor
    · exact hvalue
    · exact hnames
    · rw [rebuild, h.normal, ok_bind]
      unfold negate
      split
      · exact absurd rfl (hint _)
      · exact absurd rfl (hfloat _)
      · rfl

theorem rebuilt_binary {l' r' : Expr} (hl : Rebuilt l l') (hr : Rebuilt r r')
    (h : Folded op l' r' f) : Rebuilt (binary op l r) f := by
  constructor
  · intro v
    rw [h.exact, exact, exact, hl.exact, hr.exact]
  · rw [h.names, names_binary, hl.names, hr.names]
  · cases h with
    | literals => rfl
    | left => exact hl.normal
    | right => exact hr.normal
    | opposite _ hkept =>
      rw [rebuild, hl.normal]
      exact hkept
    | kept hkept =>
      rw [rebuild, hl.normal, hr.normal]
      exact hkept

mutual

theorem rebuilt : ∀ (e f : Expr), e.rebuild = .ok f → Rebuilt e f
  | access a es, f, h => by
    obtain ⟨fs, hfs, rfl⟩ := map_eq_ok.1 h
    have hrest := rebuiltAll es fs hfs
    constructor
    · intro v
      rw [exact, exact, hrest.exact]
    · exact congrArg (a.name :: ·) hrest.names
    · rw [rebuild, hrest.normal]
      rfl
  | neg e, g, h => by
    obtain ⟨f, hf, hg⟩ := bind_eq_ok.1 h
    exact rebuilt_negate (rebuilt e f hf) hg
  | binary op l r, f, h => by
    obtain ⟨l', hl, h⟩ := bind_eq_ok.1 h
    obtain ⟨r', hr, h⟩ := bind_eq_ok.1 h
    exact rebuilt_binary (rebuilt l l' hl) (rebuilt r r' hr) (BinaryOp.folded_of_build h)
  | int _, _, h => rebuilt_self rfl h
  | float _, _, h => rebuilt_self rfl h
  | symbol _, _, h => rebuilt_self rfl h
  | scalar _, _, h => rebuilt_self rfl h
  | dim _, _, h => rebuilt_self rfl h
  | size _, _, h => rebuilt_self rfl h
termination_by structural e => e

theorem rebuiltAll : ∀ es fs : List Expr, rebuildAll es = .ok fs → RebuiltAll es fs
  | [], fs, h => by
    obtain rfl := Except.ok.inj h
    exact ⟨fun _ => rfl, rfl, rfl⟩
  | e :: es, fs, h => by
    obtain ⟨f, hf, h⟩ := bind_eq_ok.1 h
    obtain ⟨fs, hfs, h⟩ := bind_eq_ok.1 h
    obtain rfl := Except.ok.inj h
    have hhead := rebuilt e f hf
    have htail := rebuiltAll es fs hfs
    constructor
    · intro v
      rw [exactAll, exactAll, hhead.exact, htail.exact]
    · have hnames : f.nodes.filterMap name? = e.nodes.filterMap name? := hhead.names
      rw [nodesAll, nodesAll, List.filterMap_append, List.filterMap_append, hnames, htail.names]
    · rw [rebuildAll, hhead.normal, htail.normal]
      rfl
termination_by structural es => es

end

theorem negate_overflowsIff :
    OverflowsIff e.negate (∃ n, e = int n ∧ ¬ Word.Fits (-n.toInt)) := by
  unfold negate
  split
  · exact (Word.int_overflowsIff _).map.congr (by simp)
  · exact (OverflowsIff.ok _).congr (by simp)
  · rename_i hint _
    exact (OverflowsIff.ok _).congr (iff_of_false id fun ⟨n, hn, _⟩ => hint n hn)

mutual

theorem rebuild_overflowsIff :
    ∀ e : Expr, OverflowsIff e.rebuild (∃ x ∈ e.nodes, x.LiteralOverflows)
  | access a es =>
    (rebuildAll_overflowsIff es).map.congr (by simp [nodes, LiteralOverflows])
  | neg e => by
    have hnegate : ∀ f, e.rebuild = .ok f → OverflowsIff f.negate (neg e).LiteralOverflows := by
      intro f hf
      exact negate_overflowsIff.congr (by simp [LiteralOverflows, hf])
    exact ((rebuild_overflowsIff e).bind hnegate).congr (by simp [nodes, or_comm])
  | binary op l r => by
    have hbuild : ∀ l' r', l.rebuild = .ok l' → r.rebuild = .ok r' →
        OverflowsIff (op.build l' r') (binary op l r).LiteralOverflows := by
      intro l' r' hl hr
      exact BinaryOp.build_overflowsIff.congr (by simp [LiteralOverflows, hl, hr])
    have hright := fun l' hl => (rebuild_overflowsIff r).bind (hbuild l' · hl)
    exact ((rebuild_overflowsIff l).bind hright).congr
      (by simp [nodes, or_and_right, exists_or, or_comm, or_left_comm])
  | int n => (OverflowsIff.ok _).congr (by simp [nodes, LiteralOverflows])
  | float x => (OverflowsIff.ok _).congr (by simp [nodes, LiteralOverflows])
  | symbol n => (OverflowsIff.ok _).congr (by simp [nodes, LiteralOverflows])
  | scalar s => (OverflowsIff.ok _).congr (by simp [nodes, LiteralOverflows])
  | dim d => (OverflowsIff.ok _).congr (by simp [nodes, LiteralOverflows])
  | size n => (OverflowsIff.ok _).congr (by simp [nodes, LiteralOverflows])
termination_by structural e => e

theorem rebuildAll_overflowsIff :
    ∀ es : List Expr, OverflowsIff (rebuildAll es) (∃ x ∈ nodesAll es, x.LiteralOverflows)
  | [] => (OverflowsIff.ok _).congr (by simp [nodesAll])
  | e :: es => by
    have htail := fun f (_ : e.rebuild = .ok f) =>
      (rebuildAll_overflowsIff es).bind fun fs _ => OverflowsIff.ok (f :: fs)
    exact ((rebuild_overflowsIff e).bind htail).congr
      (by simp [nodesAll, or_and_right, exists_or])
termination_by structural es => es

end

/-- Rebuilding an expression stops only where a literal that is computed on the way is no word, and
then with an overflow. What it gives otherwise has the exact value of the expression under every
valuation, none where the expression has none, and its names; and it is rebuilt as it is. -/
theorem rebuild_normalizes (e : Expr) :
    (∀ fault, e.rebuild = .error fault ↔
        fault = .overflow ∧ ∃ x ∈ e.nodes, x.LiteralOverflows) ∧
      ∀ f, e.rebuild = .ok f →
        (∀ v, f.exact v = e.exact v) ∧ f.names = e.names ∧ f.rebuild = .ok f := by
  constructor
  · exact rebuild_overflowsIff e
  · intro f h
    have hrebuilt := rebuilt e f h
    exact ⟨hrebuilt.exact, hrebuilt.names, hrebuilt.normal⟩

/-- An axis less three, written with literals to fold. -/
def shiftedAxis (x : Dimension) : Expr :=
  binary .mul (int 1) (binary .add (dim x) (binary .sub (int 2) (int 5)))

theorem rebuild_normalizes_shifted :
    let x : Dimension := ⟨"x", .spatial⟩
    (shiftedAxis x).rebuild = .ok (binary .sub (dim x) (int 3)) ∧
      (∀ v, (binary .sub (dim x) (int 3)).exact v = (shiftedAxis x).exact v) ∧
      (binary .sub (dim x) (int 3)).rebuild = .ok (binary .sub (dim x) (int 3)) ∧
      (binary .add (dim x) (int Int64.minValue)).rebuild = .error .overflow := by
  intro x
  have hrebuild : (shiftedAxis x).rebuild = .ok (binary .sub (dim x) (int 3)) := rfl
  obtain ⟨hexact, -, hnormal⟩ := (rebuild_normalizes (shiftedAxis x)).2 _ hrebuild
  have hoverflow : (binary .add (dim x) (int Int64.minValue)).LiteralOverflows :=
    ⟨dim x, int Int64.minValue, 2 ^ 63, rfl, rfl, rfl, by decide⟩
  have hnode : binary .add (dim x) (int Int64.minValue) ∈
      (binary .add (dim x) (int Int64.minValue)).nodes := by simp [nodes]
  have hstops := ((rebuild_normalizes (binary .add (dim x) (int Int64.minValue))).1 .overflow).2
    ⟨rfl, _, hnode, hoverflow⟩
  exact ⟨hrebuild, hexact, hnormal, hstops⟩

end Expr

end GridKernel
