import Mathlib.Algebra.Order.Floor.Ring
import Mathlib.Data.Rat.Floor
import Mathlib.Tactic.Ring
import GridKernel.Expr.Fold
import GridKernel.Proofs.Results

/-! Exact values of expressions. A valuation gives rational numbers to names and array cells; the
operators act on rational numbers without rounding, and an expression with a division by zero has no
value. `Folded` lists what one operator that folds literals makes of two operands, and each of these
has the value of the operator between the two. -/
namespace GridKernel

/-- The rational number that a finite word denotes. -/
def Binary64.exact (x : Binary64) : Option ℚ :=
  if x.isFinite then
    some ((if x.isNegative then -1 else 1) * (x.mantissa * (2 : ℚ) ^ x.exponent))
  else none

/-- The value of an operator, the remainder being the one that is never below zero. -/
def BinaryOp.exact : BinaryOp → ℚ → ℚ → Option ℚ
  | add, x, y => some (x + y)
  | sub, x, y => some (x - y)
  | mul, x, y => some (x * y)
  | div, x, y => if y = 0 then none else some (x / y)
  | rem, x, y => if y = 0 then none else some (x - |y| * ⌊x / |y|⌋)
  | eq, x, y => some (if x = y then 1 else 0)
  | ne, x, y => some (if x = y then 0 else 1)
  | lt, x, y => some (if x < y then 1 else 0)
  | gt, x, y => some (if y < x then 1 else 0)

/-- Rational values of names and of array cells, as far as they have one. -/
structure Valuation where
  symbol : String → Option ℚ
  scalar : Scalar → Option ℚ
  dim : Dimension → Option ℚ
  size : String → Option ℚ
  cell : GridArray → List ℚ → Option ℚ

namespace Expr

mutual

/-- The exact value of an expression under a valuation. -/
def exact (v : Valuation) : Expr → Option ℚ
  | int n => some n.toInt
  | float x => x.exact
  | symbol name => v.symbol name
  | scalar s => v.scalar s
  | dim d => v.dim d
  | size name => v.size name
  | access a indices => (exactAll v indices).bind (v.cell a)
  | neg e => (e.exact v).map (-·)
  | binary op l r => (l.exact v).bind fun x => (r.exact v).bind (op.exact x)
termination_by structural e => e

def exactAll (v : Valuation) : List Expr → Option (List ℚ)
  | [] => some []
  | e :: es => (e.exact v).bind fun x => (exactAll v es).map (x :: ·)
termination_by structural es => es

end

end Expr

/-- An operator put on two expressions: sums, differences and products fold literals, the others are
kept as written. -/
def BinaryOp.build : BinaryOp → Expr → Expr → Result Expr
  | add, e, f => e.add f
  | sub, e, f => e.sub f
  | mul, e, f => e.mul f
  | div, e, f => .ok (e.div f)
  | rem, e, f => .ok (e.rem f)
  | op, e, f => .ok (.binary op e f)

/-- Sums and differences, each opposite to the other. -/
def BinaryOp.Opposite (op op' : BinaryOp) : Prop := op = add ∧ op' = sub ∨ op = sub ∧ op' = add

theorem BinaryOp.Opposite.symm {op op' : BinaryOp} (h : op.Opposite op') : op'.Opposite op := by
  rcases h with ⟨rfl, rfl⟩ | ⟨rfl, rfl⟩
  · exact .inr ⟨rfl, rfl⟩
  · exact .inl ⟨rfl, rfl⟩

/-- What an operator makes of two operands: a literal, one of them where the other is neutral, the
opposite operator on a magnitude, or itself. -/
inductive Folded : BinaryOp → Expr → Expr → Expr → Prop where
  | literals {op : BinaryOp} {m n k : Int64}
    (h : op.exact m.toInt n.toInt = some (k.toInt : ℚ)) : Folded op (.int m) (.int n) (.int k)
  | left {op : BinaryOp} {n : Int64} (e : Expr) (h : ∀ x, op.exact x n.toInt = some x) :
    Folded op e (.int n) e
  | right {op : BinaryOp} {n : Int64} (f : Expr) (h : ∀ x, op.exact n.toInt x = some x) :
    Folded op (.int n) f f
  | opposite {op op' : BinaryOp} {n k : Int64} {e : Expr}
    (h : ∀ x, op.exact x n.toInt = op'.exact x k.toInt)
    (hkept : op'.build e (.int k) = .ok (.binary op' e (.int k))) :
    Folded op e (.int n) (.binary op' e (.int k))
  | kept {op : BinaryOp} {e f : Expr} (h : op.build e f = .ok (.binary op e f)) :
    Folded op e f (.binary op e f)

namespace Expr

variable {op op' : BinaryOp} {e f g : Expr} {n k : Int64}

@[simp] theorem int?_int (n : Int64) : (int n).int? = some n := rfl

theorem int?_eq_none : e.int? = none ↔ ∀ m, e ≠ int m := by
  cases e <;> simp [int?]

/-- A literal is added to another operand, or subtracted from one, by its magnitude. -/
theorem build_int (hop : op.Opposite op') (he : e.int? = none) : op.build e (int n) =
    if n == 0 then .ok e
    else if n < 0 then do return binary op' e (int (← Word.neg n))
    else .ok (binary op e (int n)) := by
  rcases hop with ⟨rfl, rfl⟩ | ⟨rfl, rfl⟩
  all_goals
    cases e with
    | int m => cases he
    | _ => rfl

/-- The magnitude of a negative literal is neither zero nor negative. -/
theorem magnitude_positive (hn : n < 0) (hk : k.toInt = -n.toInt) :
    (k == 0) = false ∧ ¬ k < 0 := by
  rw [Int64.lt_iff_toInt_lt, Int64.toInt_zero] at hn
  constructor
  · rw [beq_eq_false_iff_ne]
    rintro rfl
    rw [Int64.toInt_zero] at hk
    omega
  · rw [Int64.lt_iff_toInt_lt, Int64.toInt_zero]
    omega

theorem folded_of_build_int (hop : op.Opposite op') (he : e.int? = none)
    (h : op.build e (int n) = .ok g) : Folded op e (int n) g := by
  have hbuild := h
  rw [build_int hop he] at h
  split at h
  · rename_i hzero
    obtain rfl := Except.ok.inj h
    apply Folded.left
    intro x
    rcases hop with ⟨rfl, rfl⟩ | ⟨rfl, rfl⟩ <;> simp [BinaryOp.exact, eq_of_beq hzero]
  · split at h
    · rename_i hneg
      obtain ⟨k, hk, h⟩ := bind_eq_ok.1 h
      obtain rfl := Except.ok.inj h
      have hmagnitude := Word.neg_eq_ok hk
      have hpositive := magnitude_positive hneg hmagnitude
      apply Folded.opposite
      · intro x
        rcases hop with ⟨rfl, rfl⟩ | ⟨rfl, rfl⟩ <;>
          simp [BinaryOp.exact, hmagnitude, sub_eq_add_neg]
      · rw [build_int hop.symm he, hpositive.1, if_neg (by simp), if_neg hpositive.2]
    · obtain rfl := Except.ok.inj h
      exact .kept hbuild

theorem folded_of_add (h : e.add f = .ok g) : Folded .add e f g := by
  have hbuild := h
  unfold add at h
  split at h
  · obtain ⟨k, hk, rfl⟩ := map_eq_ok.1 h
    have hsum := Word.add_eq_ok hk
    exact .literals (by simp [BinaryOp.exact, hsum])
  · rename_i hint
    exact folded_of_build_int (.inl ⟨rfl, rfl⟩) (int?_eq_none.2 hint) hbuild
  · split at h
    · rename_i hzero
      obtain rfl := Except.ok.inj h
      exact .right f fun x => by simp [BinaryOp.exact, eq_of_beq hzero]
    · obtain rfl := Except.ok.inj h
      exact .kept hbuild
  · obtain rfl := Except.ok.inj h
    exact .kept hbuild

theorem folded_of_sub (h : e.sub f = .ok g) : Folded .sub e f g := by
  have hbuild := h
  unfold sub at h
  split at h
  · obtain ⟨k, hk, rfl⟩ := map_eq_ok.1 h
    have hdifference := Word.sub_eq_ok hk
    exact .literals (by simp [BinaryOp.exact, hdifference])
  · rename_i hint
    exact folded_of_build_int (.inr ⟨rfl, rfl⟩) (int?_eq_none.2 hint) hbuild
  · obtain rfl := Except.ok.inj h
    exact .kept hbuild

theorem folded_of_mul (h : e.mul f = .ok g) : Folded .mul e f g := by
  have hbuild := h
  unfold mul at h
  split at h
  · obtain ⟨k, hk, rfl⟩ := map_eq_ok.1 h
    have hproduct := Word.mul_eq_ok hk
    exact .literals (by simp [BinaryOp.exact, hproduct])
  · split at h
    · rename_i hone
      obtain rfl := Except.ok.inj h
      exact .left e fun x => by simp [BinaryOp.exact, eq_of_beq hone]
    · obtain rfl := Except.ok.inj h
      exact .kept hbuild
  · split at h
    · rename_i hone
      obtain rfl := Except.ok.inj h
      exact .right f fun x => by simp [BinaryOp.exact, eq_of_beq hone]
    · obtain rfl := Except.ok.inj h
      exact .kept hbuild
  · obtain rfl := Except.ok.inj h
    exact .kept hbuild

end Expr

theorem BinaryOp.folded_of_build {op : BinaryOp} {e f g : Expr} (h : op.build e f = .ok g) :
    Folded op e f g := by
  cases op with
  | add => exact Expr.folded_of_add h
  | sub => exact Expr.folded_of_sub h
  | mul => exact Expr.folded_of_mul h
  | _ =>
    obtain rfl := Except.ok.inj h
    exact .kept rfl

/-- What an operator makes of two operands has the value of the operator. -/
theorem Folded.exact {op : BinaryOp} {e f g : Expr} (h : Folded op e f g) (v : Valuation) :
    g.exact v = (Expr.binary op e f).exact v := by
  have hvalue (n : Int64) : (Expr.int n).exact v = some (n.toInt : ℚ) := rfl
  cases h with
  | literals h => simp [Expr.exact, h]
  | left e h =>
    cases he : e.exact v <;> simp [Expr.exact, he, h]
  | right f h =>
    cases hf : f.exact v <;> simp [Expr.exact, hf, h]
  | opposite h =>
    cases he : e.exact v <;> simp [Expr.exact, he, h]
  | kept => rfl

theorem Expr.exact_add {e f g : Expr} {v : Valuation} (h : e.add f = .ok g) :
    g.exact v = (binary .add e f).exact v :=
  (folded_of_add h).exact v

end GridKernel
