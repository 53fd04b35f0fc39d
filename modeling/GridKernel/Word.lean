import GridKernel.Binary64.Basic
import GridKernel.Fault

/-!
Arithmetic on 64-bit words that stops with `Fault.overflow` where the exact result does not fit.
Each operation is the exact one on integers followed by the range check `int` or `size`, so a
result that is returned is exact.
-/
namespace GridKernel.Word

/-- The signed word of an integer that fits one. -/
def int (n : Int) : Result Int64 :=
  if -2 ^ 63 ≤ n ∧ n < 2 ^ 63 then .ok (Int64.ofInt n) else .error .overflow

/-- The unsigned word of a natural number that fits one. -/
def size (n : Nat) : Result UInt64 :=
  if n < 2 ^ 64 then .ok (UInt64.ofNat n) else .error .overflow

def add (a b : Int64) : Result Int64 := int (a.toInt + b.toInt)
def sub (a b : Int64) : Result Int64 := int (a.toInt - b.toInt)
def mul (a b : Int64) : Result Int64 := int (a.toInt * b.toInt)
def neg (a : Int64) : Result Int64 := int (-a.toInt)

def addSize (a b : UInt64) : Result UInt64 := size (a.toNat + b.toNat)
def mulSize (a b : UInt64) : Result UInt64 := size (a.toNat * b.toNat)

/-- The signed word with the same bits: values from 2^63 on become negative. -/
def signed (n : UInt64) : Int64 := n.toInt64

/-- The product of extents, taken from the left with a check at every factor. -/
def product (dims : List UInt64) : Result UInt64 :=
  dims.foldlM mulSize 1

theorem toInt_toInt64 (n : UInt64) :
    n.toInt64.toInt = if n.toNat < 2 ^ 63 then (n.toNat : Int) else n.toNat - 2 ^ 64 := by
  have hcond := BitVec.toInt_eq_toNat_cond n.toBitVec
  rw [UInt64.toNat_toBitVec] at hcond
  refine Eq.trans hcond ?_
  by_cases hlt : n.toNat < 2 ^ 63
  · rw [if_pos hlt, if_pos (by omega)]
  · rw [if_neg hlt, if_neg (by omega)]
    rfl

theorem int_eq_ok {n : Int} {w : Int64} (h : int n = .ok w) : w.toInt = n := by
  unfold int at h
  split at h
  · rename_i hn
    injection h with h
    subst h
    exact Int64.toInt_ofInt_of_le (by simpa using hn.1) (by simpa using hn.2)
  · cases h

theorem size_eq_ok {n : Nat} {w : UInt64} (h : size n = .ok w) : w.toNat = n := by
  unfold size at h
  split at h
  · rename_i hn
    injection h with h
    subst h
    exact UInt64.toNat_ofNat_of_lt hn
  · cases h

theorem add_eq_ok {a b c : Int64} (h : add a b = .ok c) : c.toInt = a.toInt + b.toInt :=
  int_eq_ok h

theorem sub_eq_ok {a b c : Int64} (h : sub a b = .ok c) : c.toInt = a.toInt - b.toInt :=
  int_eq_ok h

theorem mul_eq_ok {a b c : Int64} (h : mul a b = .ok c) : c.toInt = a.toInt * b.toInt :=
  int_eq_ok h

theorem neg_eq_ok {a c : Int64} (h : neg a = .ok c) : c.toInt = -a.toInt :=
  int_eq_ok h

end GridKernel.Word
