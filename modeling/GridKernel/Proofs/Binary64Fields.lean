import GridKernel.Binary64.Arithmetic

/-! Fields of double-precision words. The sign, the exponent and the fraction of a word are the
digits of its bit pattern, read as one number. -/
namespace GridKernel.Binary64

theorem toNat_abs (x : Binary64) : x.abs.bits.toNat = x.bits.toNat % 2 ^ 63 := by
  rw [abs, UInt64.toNat_and]
  exact Nat.and_two_pow_sub_one_eq_mod _ 63

theorem fraction_eq (x : Binary64) : x.fraction = x.bits.toNat % 2 ^ 52 := by
  rw [fraction, UInt64.toNat_and]
  exact Nat.and_two_pow_sub_one_eq_mod _ 52

theorem exponentField_eq (x : Binary64) :
    x.exponentField = x.bits.toNat % 2 ^ 63 / 2 ^ 52 := by
  have hshift : (52 : UInt64).toNat % 64 = 52 := rfl
  rw [exponentField, UInt64.toNat_shiftRight, hshift, toNat_abs, Nat.shiftRight_eq_div_pow]

theorem isNegative_eq (x : Binary64) : x.isNegative = decide (2 ^ 63 ≤ x.bits.toNat) := by
  have hlt := x.bits.toNat_lt
  have hdiv := Nat.div_add_mod (x.bits.toNat &&& 2 ^ 63) (2 ^ 63)
  rw [Nat.and_mod_two_pow, Nat.and_div_two_pow, Nat.mod_self, Nat.and_zero,
    Nat.div_self (by decide), Nat.and_one_is_mod] at hdiv
  have hand : (x.bits &&& signBit).toNat = 2 ^ 63 * (x.bits.toNat / 2 ^ 63 % 2) := by
    rw [UInt64.toNat_and]
    exact hdiv.symm
  rw [isNegative, bne, Bool.eq_iff_iff]
  simp only [Bool.not_eq_true', beq_eq_false_iff_ne, ne_eq, ← UInt64.toNat_inj, hand,
    decide_eq_true_eq, UInt64.toNat_zero]
  omega

theorem toNat_neg_mod (x : Binary64) : x.neg.bits.toNat % 2 ^ 63 = x.bits.toNat % 2 ^ 63 := by
  rw [neg, UInt64.toNat_xor]
  show (x.bits.toNat ^^^ 2 ^ 63) % 2 ^ 63 = _
  rw [Nat.xor_mod_two_pow, Nat.mod_self, Nat.xor_zero]

theorem toNat_neg_div (x : Binary64) : x.neg.bits.toNat / 2 ^ 63 = 1 - x.bits.toNat / 2 ^ 63 := by
  have hlt := x.bits.toNat_lt
  rw [neg, UInt64.toNat_xor]
  show (x.bits.toNat ^^^ 2 ^ 63) / 2 ^ 63 = _
  rw [Nat.xor_div_two_pow, Nat.div_self (by decide)]
  have hbit : x.bits.toNat / 2 ^ 63 = 0 ∨ x.bits.toNat / 2 ^ 63 = 1 := by omega
  rcases hbit with h | h <;> rw [h]
  · rfl
  · rfl

theorem exponentField_neg (x : Binary64) : x.neg.exponentField = x.exponentField := by
  rw [exponentField_eq, exponentField_eq, toNat_neg_mod]

theorem fraction_neg (x : Binary64) : x.neg.fraction = x.fraction := by
  have hmod := toNat_neg_mod x
  rw [fraction_eq, fraction_eq]
  omega

theorem isNegative_neg (x : Binary64) : x.neg.isNegative = !x.isNegative := by
  have hdiv := toNat_neg_div x
  have hlt := x.bits.toNat_lt
  have hlt' := x.neg.bits.toNat_lt
  rw [isNegative_eq, isNegative_eq, Bool.eq_iff_iff]
  simp only [Bool.not_eq_true', decide_eq_true_eq, decide_eq_false_iff_not]
  omega

theorem exponentField_abs (x : Binary64) : x.abs.exponentField = x.exponentField := by
  rw [exponentField_eq, exponentField_eq, toNat_abs, Nat.mod_mod]

theorem fraction_abs (x : Binary64) : x.abs.fraction = x.fraction := by
  rw [fraction_eq, fraction_eq, toNat_abs]
  omega

theorem isNegative_abs (x : Binary64) : x.abs.isNegative = false := by
  rw [isNegative_eq, toNat_abs, decide_eq_false_iff_not]
  omega

theorem fraction_lt (x : Binary64) : x.fraction < 2 ^ 52 := by
  rw [fraction_eq]
  omega

/-- The word of a sign, an exponent field and a fraction. -/
def ofFields (negative : Bool) (exponent fraction : Nat) : Binary64 :=
  ⟨UInt64.ofNat (negative.toNat * 2 ^ 63 + exponent * 2 ^ 52 + fraction)⟩

section OfFields
variable {negative : Bool} {e f : Nat} (he : e < 2 ^ 11) (hf : f < 2 ^ 52)
include he hf

theorem toNat_ofFields :
    (ofFields negative e f).bits.toNat = negative.toNat * 2 ^ 63 + e * 2 ^ 52 + f := by
  have hnegative := Bool.toNat_le negative
  have hlt : negative.toNat * 2 ^ 63 + e * 2 ^ 52 + f < 2 ^ 64 := by omega
  exact UInt64.toNat_ofNat_of_lt hlt

theorem isNegative_ofFields : (ofFields negative e f).isNegative = negative := by
  rw [isNegative_eq, toNat_ofFields he hf]
  cases negative
  · rw [decide_eq_false_iff_not, Bool.toNat_false]
    omega
  · rw [decide_eq_true_eq, Bool.toNat_true]
    omega

theorem exponentField_ofFields : (ofFields negative e f).exponentField = e := by
  rw [exponentField_eq, toNat_ofFields he hf]
  omega

theorem fraction_ofFields : (ofFields negative e f).fraction = f := by
  rw [fraction_eq, toNat_ofFields he hf]
  omega

end OfFields

end GridKernel.Binary64
