import GridKernel.Word

/-! Words and the integers that they hold. A checked operation overflows exactly when its exact
result does not fit, and an unsigned word below 2^63 keeps its value as a signed one. -/
namespace GridKernel.Word

/-- The integers that a signed word holds. -/
def Fits (n : Int) : Prop := -2 ^ 63 ≤ n ∧ n < 2 ^ 63

instance (n : Int) : Decidable (Fits n) := inferInstanceAs (Decidable (_ ∧ _))

theorem fits_toInt (w : Int64) : Fits w.toInt := ⟨w.le_toInt, w.toInt_lt⟩

theorem int_overflows {n : Int} : int n = .error .overflow ↔ ¬ Fits n := by
  unfold int Fits
  split <;> simp_all

theorem int_eq {n : Int} (h : -2 ^ 63 ≤ n ∧ n < 2 ^ 63) : int n = .ok (Int64.ofInt n) :=
  if_pos h

theorem int_toInt (k : Int64) : int k.toInt = .ok k := by
  rw [int_eq (fits_toInt k), Int64.ofInt_toInt]

theorem exists_int {n : Int} (h : Fits n) : ∃ w, int n = .ok w ∧ w.toInt = n :=
  ⟨_, int_eq h, int_eq_ok (int_eq h)⟩

theorem exists_size {n : Nat} (h : n < 2 ^ 64) : ∃ w, size n = .ok w ∧ w.toNat = n :=
  ⟨UInt64.ofNat n, if_pos h, UInt64.toNat_ofNat_of_lt h⟩

theorem size_overflows {n : Nat} : size n = .error .overflow ↔ 2 ^ 64 ≤ n := by
  unfold size
  split <;> simp_all

theorem toNat_toUInt64 {i : Int64} (h : 0 ≤ i.toInt) : i.toUInt64.toNat = i.toInt.toNat := by
  have hcond := i.toBitVec.toInt_eq_toNat_cond
  have hlt := i.toBitVec.isLt
  have hsigned : i.toInt = i.toBitVec.toInt := rfl
  have hunsigned : i.toUInt64.toNat = i.toBitVec.toNat := rfl
  omega

theorem toInt_of_lt {n : UInt64} (h : n.toNat < 2 ^ 63) : n.toInt64.toInt = n.toNat := by
  rw [toInt_toInt64, if_pos h]

theorem toInt64_nonneg {n : UInt64} (h : n.toNat < 2 ^ 63) : ¬ n.toInt64 < 0 := by
  have hzero : (0 : Int64).toInt = 0 := rfl
  rw [Int64.lt_iff_toInt_lt, toInt_of_lt h, hzero]
  omega

/-- As a signed word an unsigned one is at most its value. -/
theorem toInt_toInt64_le (n : UInt64) : n.toInt64.toInt ≤ n.toNat := by
  rw [toInt_toInt64]
  split <;> omega

end GridKernel.Word
