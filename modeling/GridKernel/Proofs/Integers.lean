import GridKernel.Proofs.Evaluation
import GridKernel.Proofs.Frames
import GridKernel.Proofs.Words

/-! Exact integers. Double precision holds the integers of magnitude at most 2^53, and sums,
differences and remainders of integers that stay in this range are exact. -/
namespace GridKernel

open Arithmetic in
/-- A value is an integer that double precision holds exactly. -/
def Denotes {R : Type} [Arithmetic R] (x : R) (n : Int) : Prop :=
  n.natAbs ≤ 2 ^ 53 ∧ index? x = some (Int64.ofInt n)

open Arithmetic in
/-- Arithmetic that is exact on integers of magnitude at most 2^53. -/
class ExactIntegers (R : Type) [Arithmetic R] : Prop where
  ofInt (n : Int64) (h : n.toInt.natAbs ≤ 2 ^ 53) : Denotes (ofInt n : R) n.toInt
  add {x y : R} {a b : Int} (hx : Denotes x a) (hy : Denotes y b)
    (h : (a + b).natAbs ≤ 2 ^ 53) : Denotes (add x y) (a + b)
  sub {x y : R} {a b : Int} (hx : Denotes x a) (hy : Denotes y b)
    (h : (a - b).natAbs ≤ 2 ^ 53) : Denotes (sub x y) (a - b)
  rem {x y : R} {a b : Int} (hx : Denotes x a) (hy : Denotes y b) (h : b ≠ 0) :
    Denotes (rem x y) (a % b)
  isTrue {x : R} {a : Int} (hx : Denotes x a) : isTrue x = decide (a ≠ 0)

theorem toInt_ofInt {n : Int} (h : n.natAbs ≤ 2 ^ 53) : (Int64.ofInt n).toInt = n :=
  Int64.toInt_ofInt_of_le (by omega) (by omega)

namespace Machine

variable {R : Type} [Arithmetic R] {m m' : Machine R}

/-- An expression has an exact integer as its value. -/
def Evaluates (m : Machine R) (e : Expr) (n : Int) : Prop :=
  ∃ x, m.eval e = .ok x ∧ Denotes x n

namespace Evaluates

theorem bounded {e : Expr} {n : Int} (h : m.Evaluates e n) : n.natAbs ≤ 2 ^ 53 := by
  obtain ⟨x, -, hx⟩ := h
  exact hx.1

theorem congr {e : Expr} {n : Int} (h : m.Evaluates e n) (hm : m'.eval e = m.eval e) :
    m'.Evaluates e n := by
  obtain ⟨x, hx, hn⟩ := h
  exact ⟨x, hm.trans hx, hn⟩

/-- The value of an expression is unique. -/
theorem unique {e : Expr} {a b : Int} (ha : m.Evaluates e a) (hb : m.Evaluates e b) : a = b := by
  obtain ⟨x, hx, hxa⟩ := ha
  obtain ⟨y, hy, hyb⟩ := hb
  obtain rfl : x = y := by simpa [hx] using hy
  have hwords : Int64.ofInt a = Int64.ofInt b := by simpa [hxa.2] using hyb.2
  have hints := congrArg Int64.toInt hwords
  rwa [toInt_ofInt hxa.1, toInt_ofInt hyb.1] at hints

theorem evalIndex {e : Expr} {n : Int} (h : m.Evaluates e n) :
    m.evalIndex e = .ok (Int64.ofInt n) := by
  obtain ⟨x, hx, hn⟩ := h
  simp [Machine.evalIndex, hx, toIndex, bound, hn.2]

theorem scalar {s : Scalar} {x : R} {n : Int} (hs : m.scalars[s.name]? = some x)
    (hx : Denotes x n) : m.Evaluates (.scalar s) n :=
  ⟨x, by simp [eval, hs, bound], hx⟩

variable [ExactIntegers R]

theorem int {n : Int64} (h : n.toInt.natAbs ≤ 2 ^ 53) : m.Evaluates (.int n) n.toInt :=
  ⟨_, rfl, ExactIntegers.ofInt n h⟩

theorem dim {d : Dimension} {n : Int} (h : n.natAbs ≤ 2 ^ 53)
    (hd : m.indices[d.name]? = some (Int64.ofInt n)) : m.Evaluates (.dim d) n := by
  have hx := ExactIntegers.ofInt (R := R) (Int64.ofInt n) (by rwa [toInt_ofInt h])
  rw [toInt_ofInt h] at hx
  exact ⟨_, by simp [eval, hd, bound], hx⟩

theorem size {name : String} {n : Int} (h : n.natAbs ≤ 2 ^ 53)
    (hn : m.sizes[name]? = some (Int64.ofInt n)) : m.Evaluates (.size name) n := by
  have hx := ExactIntegers.ofInt (R := R) (Int64.ofInt n) (by rwa [toInt_ofInt h])
  rw [toInt_ofInt h] at hx
  exact ⟨_, by simp [eval, hn, bound], hx⟩

theorem add {l r : Expr} {a b : Int} (hl : m.Evaluates l a) (hr : m.Evaluates r b)
    (h : (a + b).natAbs ≤ 2 ^ 53) : m.Evaluates (.binary .add l r) (a + b) := by
  obtain ⟨x, hx, hxa⟩ := hl
  obtain ⟨y, hy, hyb⟩ := hr
  exact ⟨_, by simp [eval, hx, hy]; rfl, ExactIntegers.add hxa hyb h⟩

theorem sub {l r : Expr} {a b : Int} (hl : m.Evaluates l a) (hr : m.Evaluates r b)
    (h : (a - b).natAbs ≤ 2 ^ 53) : m.Evaluates (.binary .sub l r) (a - b) := by
  obtain ⟨x, hx, hxa⟩ := hl
  obtain ⟨y, hy, hyb⟩ := hr
  exact ⟨_, by simp [eval, hx, hy]; rfl, ExactIntegers.sub hxa hyb h⟩

theorem rem {l r : Expr} {a b : Int} (hl : m.Evaluates l a) (hr : m.Evaluates r b)
    (h : b ≠ 0) : m.Evaluates (.binary .rem l r) (a % b) := by
  obtain ⟨x, hx, hxa⟩ := hl
  obtain ⟨y, hy, hyb⟩ := hr
  exact ⟨_, by simp [eval, hx, hy]; rfl, ExactIntegers.rem hxa hyb h⟩

end Evaluates

end Machine
end GridKernel
