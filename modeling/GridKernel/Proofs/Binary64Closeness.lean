import GridKernel.Machine.Arithmetic
import GridKernel.Proofs.Binary64Integers
import GridKernel.Proofs.Integers

/-! Closeness to zero. An exact integer other than zero is too large for the tolerance and too many
words away from zero, so that it counts as true. -/
namespace GridKernel

namespace Binary64

open Float.Model Float.Model.UnpackedFloat

theorem unpack_tolerance :
    tolerance.toFloat.toModel.unpack = .finite .positive (2 ^ 52) (-104) (by decide) :=
  rfl

theorem Canonical.compare_tolerance {u : UnpackedFloat} {k : Nat} (h : Canonical u k)
    (hk : k ≠ 0) :
    u.compare (.finite .positive (2 ^ 52) (-104) (by decide)) = some .gt := by
  generalize hn : (k : Int) = n at h
  cases h with
  | zero s => omega
  | @finite s m c k' hm hs =>
    have hpos := hs.magnitude_pos
    cases s with
    | negative =>
      have hneg : (k : Int) = -k' := hn
      omega
    | positive =>
      have hexponent : compare ((c : Int) - 52) (-104) = .gt := Int.compare_eq_gt.2 (by omega)
      show some ((compare ((c : Int) - 52) (-104)).then (compare m (2 ^ 52))) = some .gt
      rw [hexponent]
      rfl

theorem Holds.not_within_tolerance {x y : Binary64} {n : Int} (hx : Holds x n) (hy : Holds y 0)
    (hn : n ≠ 0) : ¬ (x.sub y).abs.toFloat ≤ tolerance.toFloat := by
  have hsub := hx.sub hy (by simpa using hx.1)
  rw [Int.sub_zero] at hsub
  have hcompare := hsub.abs.toFloat.compare_tolerance (by omega)
  rw [← unpack_tolerance] at hcompare
  intro hle
  have hany : ((x.sub y).abs.toFloat.toModel.unpack.compare
      tolerance.toFloat.toModel.unpack).any (·.isLE) = true := of_decide_eq_true hle
  rw [hcompare] at hany
  cases hany

theorem toNat_orderedBits (x : Binary64) :
    x.orderedBits.toNat =
      if x.isNegative then 2 ^ 64 - 1 - x.bits.toNat else x.bits.toNat + 2 ^ 63 := by
  have hlt := x.bits.toNat_lt
  unfold orderedBits
  by_cases hneg : x.isNegative
  · rw [if_pos hneg, if_pos hneg, UInt64.toNat_not]
  · have hmod := toNat_neg_mod x
    have hdiv := toNat_neg_div x
    rw [isNegative_eq, decide_eq_true_eq] at hneg
    rw [isNegative_eq, if_neg (by simpa using hneg), if_neg (by simpa using hneg)]
    show x.neg.bits.toNat = _
    omega

theorem Holds.ordered_apart {x y : Binary64} {n : Int} (hx : Holds x n) (hy : Holds y 0)
    (hn : n ≠ 0) : ¬ (x.orderedBits - y.orderedBits).toInt64.toInt.natAbs ≤ 4 := by
  obtain ⟨c, hc, -⟩ := hx.scaled hn
  obtain ⟨hexponent, hfraction⟩ := hy.fields_zero
  have hbound := hx.exponentField_lt
  have hxb := x.bits.toNat_lt
  have hyb := y.bits.toNat_lt
  rw [hc] at hbound
  rw [exponentField_eq] at hc hexponent
  rw [fraction_eq] at hfraction
  have hxo := toNat_orderedBits x
  have hyo := toNat_orderedBits y
  rw [isNegative_eq] at hxo hyo
  simp only [decide_eq_true_eq] at hxo hyo
  have hsub := UInt64.toNat_sub x.orderedBits y.orderedBits
  rw [Word.toInt_toInt64]
  by_cases hxneg : 2 ^ 63 ≤ x.bits.toNat
  · rw [if_pos hxneg] at hxo
    by_cases hyneg : 2 ^ 63 ≤ y.bits.toNat
    · rw [if_pos hyneg] at hyo
      split <;> omega
    · rw [if_neg hyneg] at hyo
      split <;> omega
  · rw [if_neg hxneg] at hxo
    by_cases hyneg : 2 ^ 63 ≤ y.bits.toNat
    · rw [if_pos hyneg] at hyo
      split <;> omega
    · rw [if_neg hyneg] at hyo
      split <;> omega

/-- An exact integer is close to zero only if it is zero. -/
theorem Holds.close_zero {x y : Binary64} {n : Int} (hx : Holds x n) (hy : Holds y 0) :
    x.close y = decide (n = 0) := by
  unfold close
  rw [hx.beq_zero hy]
  by_cases hn : n = 0
  · rw [decide_eq_true hn]
    rfl
  · rw [decide_eq_false hn, decide_eq_false (hx.not_within_tolerance hy hn),
      decide_eq_false (hx.ordered_apart hy hn)]
    rfl

/-- Integers of magnitude at most 2^53 are read as indices without being held to a range. -/
theorem index?_eq {x : Binary64} {n : Int} (hn : n.natAbs ≤ 2 ^ 53) :
    x.index? = some (Int64.ofInt n) ↔ x.toInt? = some n := by
  unfold index?
  constructor
  · intro h
    obtain ⟨k, hk, hword⟩ := Option.map_eq_some_iff.1 h
    have hint := congrArg Int64.toInt hword
    rw [toInt_ofInt hn, Int64.toInt_ofInt_of_le (by omega) (by omega)] at hint
    rw [hk]
    congr 1
    omega
  · intro h
    rw [h]
    show some (Int64.ofInt (max (-2 ^ 63) (min (2 ^ 63 - 1) n))) = _
    congr 2
    omega

theorem denotes_iff {x : Binary64} {n : Int} : Denotes x n ↔ Holds x n := by
  constructor
  · rintro ⟨hn, hx⟩
    exact ⟨hn, (index?_eq hn).1 hx⟩
  · rintro ⟨hn, hx⟩
    exact ⟨hn, (index?_eq hn).2 hx⟩

end Binary64

open Binary64 in
instance : ExactIntegers Binary64 where
  ofInt n h := denotes_iff.2 (holds_ofInt h)
  add hx hy h := denotes_iff.2 ((denotes_iff.1 hx).add (denotes_iff.1 hy) h)
  sub hx hy h := denotes_iff.2 ((denotes_iff.1 hx).sub (denotes_iff.1 hy) h)
  rem hx hy h := denotes_iff.2 ((denotes_iff.1 hx).rem (denotes_iff.1 hy) h)
  isTrue hx := by
    have hclose := (denotes_iff.1 hx).close_zero (holds_ofInt (n := 0) (by decide))
    show (!close _ (ofInt 0)) = _
    rw [hclose]
    exact decide_not.symm

end GridKernel
