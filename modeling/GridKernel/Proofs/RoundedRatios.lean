import Mathlib.Algebra.Order.Field.Power
import Mathlib.Data.Rat.Floor
import Mathlib.Tactic.FieldSimp
import Mathlib.Tactic.Positivity
import GridKernel.Proofs.Binary64Fields
import GridKernel.Proofs.ExactValues

/-! Rounding of ratios. A positive finite word is the one nearest to every ratio between the middles
of the gaps around it, the middles included when its mantissa is even. -/
namespace GridKernel.Binary64

/-- A quotient within half of an integer is rounded to it, at a distance of one half when it is
even. -/
theorem roundDiv_eq {num den m : Nat} (hden : 0 < den) (hlow : (2 * m - 1 : Int) * den ≤ 2 * num)
    (hhigh : (2 * num : Int) ≤ (2 * m + 1) * den)
    (hodd : m % 2 = 1 → (2 * m - 1 : Int) * den < 2 * num ∧ (2 * num : Int) < (2 * m + 1) * den) :
    roundDiv num den = m := by
  have hdiv := Nat.div_add_mod num den
  have hmod := Nat.mod_lt num hden
  unfold roundDiv
  generalize num / den = q at hdiv ⊢
  generalize num % den = r at hdiv hmod ⊢
  obtain ⟨k, hk⟩ : ∃ k : Int, (q : Int) = m + k := ⟨q - m, by omega⟩
  have hnum : (2 * num : Int) = 2 * m * den + (2 * (k * den) + 2 * r) := by
    rw [← hdiv]
    push_cast
    rw [hk]
    ring
  rw [sub_mul, one_mul, hnum] at hlow hodd
  rw [add_mul, one_mul] at hhigh hodd
  rw [hnum] at hhigh
  have hkle : k ≤ 0 := by
    by_contra hpos
    have hmul : 1 * (den : Int) ≤ k * den := Int.mul_le_mul_of_nonneg_right (by omega) (by omega)
    omega
  have hkge : -1 ≤ k := by
    by_contra hneg
    have hmul : k * (den : Int) ≤ -2 * den := Int.mul_le_mul_of_nonneg_right (by omega) (by omega)
    omega
  obtain rfl | rfl : k = 0 ∨ k = -1 := by omega
  all_goals dsimp only
  · split
    · omega
    · split
      · omega
      · omega
  · split
    · omega
    · split
      · omega
      · omega

/-- A natural power of two as an integer power, the negative part moved to the other side. -/
theorem two_pow_toNat (e : Int) : (2 : ℚ) ^ e.toNat = 2 ^ e * 2 ^ (-e).toNat := by
  rw [← zpow_natCast, ← zpow_natCast, ← zpow_add₀ two_ne_zero]
  congr 1
  omega

theorem two_zpow_le_div {num den : Nat} (hden : 0 < den) (k : Int) :
    (2 : ℚ) ^ k ≤ num / den ↔ den * 2 ^ k.toNat ≤ num * 2 ^ (-k).toNat := by
  have hden' : (0 : ℚ) < den := by exact_mod_cast hden
  have hpow : (0 : ℚ) < 2 ^ (-k).toNat := by positivity
  rw [le_div_iff₀ hden', ← mul_le_mul_iff_of_pos_right hpow, mul_comm _ (den : ℚ), mul_assoc,
    ← two_pow_toNat]
  exact_mod_cast Iff.rfl

/-- The binary logarithm of a ratio, rounded down. -/
theorem floorLog_spec {num den : Nat} (hnum : 0 < num) (hden : 0 < den) :
    (2 : ℚ) ^ floorLog num den ≤ num / den ∧ (num : ℚ) / den < 2 ^ (floorLog num den + 1) := by
  have hden' : (0 : ℚ) < den := by exact_mod_cast hden
  have hreached : (if 0 ≤ (num.log2 : Int) - den.log2 then
      den * 2 ^ ((num.log2 : Int) - den.log2).toNat ≤ num
      else den ≤ num * 2 ^ (-((num.log2 : Int) - den.log2)).toNat) ↔
      (2 : ℚ) ^ ((num.log2 : Int) - den.log2) ≤ num / den := by
    rw [two_zpow_le_div hden]
    split
    · rw [Int.toNat_of_nonpos (by omega : -((num.log2 : Int) - den.log2) ≤ 0), pow_zero, mul_one]
    · rw [Int.toNat_of_nonpos (by omega : (num.log2 : Int) - den.log2 ≤ 0), pow_zero, mul_one]
  have hlow : (2 : ℚ) ^ num.log2 ≤ num := by exact_mod_cast Nat.log2_self_le (by omega)
  have hhigh : (num : ℚ) < 2 ^ (num.log2 + 1) := by exact_mod_cast Nat.lt_log2_self
  have hlow' : (2 : ℚ) ^ den.log2 ≤ den := by exact_mod_cast Nat.log2_self_le (by omega)
  have hhigh' : (den : ℚ) < 2 ^ (den.log2 + 1) := by exact_mod_cast Nat.lt_log2_self
  unfold floorLog
  dsimp only
  rw [if_congr hreached rfl rfl]
  split
  · rename_i h
    refine ⟨h, ?_⟩
    calc (num : ℚ) / den < 2 ^ (num.log2 + 1) / 2 ^ den.log2 := by gcongr
      _ = _ := by
        rw [← zpow_natCast, ← zpow_natCast, ← zpow_sub₀ two_ne_zero]
        congr 1
        push_cast
        ring
  · rename_i h
    refine ⟨?_, by simpa using lt_of_not_ge h⟩
    calc (2 : ℚ) ^ ((num.log2 : Int) - den.log2 - 1) = 2 ^ num.log2 / 2 ^ (den.log2 + 1) := by
          rw [← zpow_natCast, ← zpow_natCast, ← zpow_sub₀ two_ne_zero]
          congr 1
          push_cast
          ring
      _ ≤ num / den := by gcongr

theorem floorLog_eq {num den : Nat} (hnum : 0 < num) (hden : 0 < den) {k : Int}
    (hlow : (2 : ℚ) ^ k ≤ num / den) (hhigh : (num : ℚ) / den < 2 ^ (k + 1)) :
    floorLog num den = k := by
  obtain ⟨hlow', hhigh'⟩ := floorLog_spec hnum hden
  have hle := (zpow_lt_zpow_iff_right₀ (one_lt_two : (1 : ℚ) < 2)).1 (hlow.trans_lt hhigh')
  have hge := (zpow_lt_zpow_iff_right₀ (one_lt_two : (1 : ℚ) < 2)).1 (hlow'.trans_lt hhigh)
  omega

/-- A ratio within half of a multiple of a power of two is rounded to it on the scale of that power,
at a distance of one half when the factor is even. -/
theorem roundDiv_scaled {num den m : Nat} (hden : 0 < den) {e : Int}
    (hlow : ((m : ℚ) - 1 / 2) * 2 ^ e ≤ num / den) (hhigh : (num : ℚ) / den ≤ (m + 1 / 2) * 2 ^ e)
    (hodd : m % 2 = 1 →
      ((m : ℚ) - 1 / 2) * 2 ^ e < num / den ∧ (num : ℚ) / den < (m + 1 / 2) * 2 ^ e) :
    (if 0 ≤ e then roundDiv num (den * 2 ^ e.toNat) else roundDiv (num * 2 ^ (-e).toNat) den) =
      m := by
  have hden' : (0 : ℚ) < den := by exact_mod_cast hden
  have hpow : (0 : ℚ) < 2 ^ (-e).toNat := by positivity
  have hscaled : (if 0 ≤ e then roundDiv num (den * 2 ^ e.toNat)
      else roundDiv (num * 2 ^ (-e).toNat) den) =
      roundDiv (num * 2 ^ (-e).toNat) (den * 2 ^ e.toNat) := by
    split
    · rw [Int.toNat_of_nonpos (by omega : -e ≤ 0), pow_zero, mul_one]
    · rw [Int.toNat_of_nonpos (by omega : e ≤ 0), pow_zero, mul_one]
  -- The bounds in integers are the given ones, times the denominators.
  have hbound (s : ℚ) : (2 * s) * ((den : ℚ) * 2 ^ e.toNat) =
      s * 2 ^ e * (2 * den * 2 ^ (-e).toNat) := by
    rw [two_pow_toNat]
    ring
  have hvalue : 2 * ((num : ℚ) * 2 ^ (-e).toNat) = num / den * (2 * den * 2 ^ (-e).toNat) := by
    field_simp
  have hscale : (0 : ℚ) < 2 * den * 2 ^ (-e).toNat := by positivity
  have hbelow : ((2 * m - 1 : Int) : ℚ) = 2 * ((m : ℚ) - 1 / 2) := by push_cast; ring
  have habove : ((2 * m + 1 : Int) : ℚ) = 2 * ((m : ℚ) + 1 / 2) := by push_cast; ring
  rw [hscaled]
  apply roundDiv_eq
  · positivity
  · have h := mul_le_mul_of_nonneg_right hlow hscale.le
    rw [← hbound, ← hvalue, ← hbelow] at h
    exact_mod_cast h
  · have h := mul_le_mul_of_nonneg_right hhigh hscale.le
    rw [← hbound, ← hvalue, ← habove] at h
    exact_mod_cast h
  · intro hm
    obtain ⟨hlow, hhigh⟩ := hodd hm
    constructor
    · have h := mul_lt_mul_of_pos_right hlow hscale
      rw [← hbound, ← hvalue, ← hbelow] at h
      exact_mod_cast h
    · have h := mul_lt_mul_of_pos_right hhigh hscale
      rw [← hbound, ← hvalue, ← habove] at h
      exact_mod_cast h

/-- The distance from a word down to the numbers that round to it, in units of its last place. The
gap below a power of two is half the gap above it. -/
def reachBelow (x : Binary64) : ℚ := if x.mantissa = 2 ^ 52 then 1 / 4 else 1 / 2

theorem reachBelow_le (x : Binary64) : x.reachBelow ≤ 1 / 2 := by
  unfold reachBelow
  split <;> norm_num

/-- A number between the middles of the gaps around a positive word, the middles included when its
mantissa is even. -/
structure Near (x : Binary64) (r : ℚ) : Prop where
  low : (x.mantissa - x.reachBelow) * 2 ^ x.exponent ≤ r
  high : r ≤ (x.mantissa + 1 / 2) * 2 ^ x.exponent
  inside : x.mantissa % 2 = 1 → (x.mantissa - x.reachBelow) * 2 ^ x.exponent < r ∧
    r < (x.mantissa + 1 / 2) * 2 ^ x.exponent

section Fields
variable {x : Binary64}

/-- A word without a sign is its mantissa and exponent, put back into its fields. -/
theorem toNat_bits_eq (hpositive : x.isNegative = false) :
    x.bits.toNat = if x.mantissa < 2 ^ 52 then x.mantissa
      else x.mantissa - 2 ^ 52 + (x.exponent + 1075).toNat * 2 ^ 52 := by
  have hfraction := x.fraction_lt
  rw [isNegative_eq, decide_eq_false_iff_not] at hpositive
  have hbits : x.bits.toNat = x.exponentField * 2 ^ 52 + x.fraction := by
    rw [exponentField_eq, fraction_eq]
    omega
  rw [hbits, mantissa, exponent]
  split
  · omega
  · rw [if_neg (by omega)]
    omega

theorem toNat_bits_lt (hfinite : x.isFinite) (hpositive : x.isNegative = false) :
    x.bits.toNat < infinity.bits.toNat := by
  rw [isNegative_eq, decide_eq_false_iff_not] at hpositive
  rw [isFinite, exponentField_eq, bne_iff_ne] at hfinite
  have hinfinity : infinity.bits.toNat = 2047 * 2 ^ 52 := rfl
  have := x.bits.toNat_lt
  omega

theorem le_exponent (x : Binary64) : -1074 ≤ x.exponent := by
  unfold exponent
  split <;> omega

theorem mantissa_lt (x : Binary64) : x.mantissa < 2 ^ 53 := by
  have := x.fraction_lt
  unfold mantissa
  split <;> omega

/-- Only the words of the least exponent have a mantissa without the leading bit. -/
theorem exponent_of_mantissa_lt (h : x.mantissa < 2 ^ 52) : x.exponent = -1074 := by
  unfold mantissa at h
  split at h
  · rename_i hfield
    exact if_pos hfield
  · omega

/-- A ratio is rounded to the word whose bits are the rounded mantissa and the scale. -/
theorem ofRatio_eq (hlt : x.bits.toNat < infinity.bits.toNat) {num den m : Nat} {e : Int}
    (hnum : 0 < num) (he : max (-1074) (floorLog num den - 52) = e)
    (hround : (if 0 ≤ e then roundDiv num (den * 2 ^ e.toNat)
      else roundDiv (num * 2 ^ (-e).toNat) den) = m)
    (hbits : x.bits.toNat =
      if m < 2 ^ 52 then m else m - 2 ^ 52 + (e + 1075).toNat * 2 ^ 52) :
    ofRatio false num den = x := by
  unfold ofRatio
  dsimp only
  rw [if_neg (Nat.ne_of_gt hnum), he, hround, ← hbits, Nat.min_eq_left hlt.le]
  simp

theorem zpow_exponent_add (x : Binary64) (k : Int) :
    (2 : ℚ) ^ (x.exponent + k) = 2 ^ k * 2 ^ x.exponent := by
  rw [add_comm, zpow_add₀ two_ne_zero]

/-- What is near a word is below the power of two above its mantissas. -/
theorem Near.lt {r : ℚ} (h : x.Near r) {k : Nat} (hk : x.mantissa < 2 ^ k) :
    r < 2 ^ (x.exponent + k) := by
  have hmantissa : (x.mantissa : ℚ) + 1 ≤ 2 ^ k := by exact_mod_cast hk
  calc r ≤ (x.mantissa + 1 / 2) * 2 ^ x.exponent := h.high
    _ < 2 ^ (k : Int) * 2 ^ x.exponent := by
      gcongr
      rw [zpow_natCast]
      linarith
    _ = _ := (x.zpow_exponent_add k).symm

/-- On the scale of the word a ratio near it is rounded to its mantissa. -/
theorem Near.roundDiv {num den : Nat} (hden : 0 < den) (h : x.Near (num / den)) :
    (if 0 ≤ x.exponent then Binary64.roundDiv num (den * 2 ^ x.exponent.toNat)
      else Binary64.roundDiv (num * 2 ^ (-x.exponent).toNat) den) = x.mantissa := by
  have hreach := x.reachBelow_le
  apply roundDiv_scaled hden _ h.high
  · intro hodd
    obtain ⟨hlow, hhigh⟩ := h.inside hodd
    exact ⟨lt_of_le_of_lt (by gcongr) hlow, hhigh⟩
  · exact le_trans (by gcongr) h.low

/-- Only the least mantissa with a leading bit has numbers near it below its power of two. -/
theorem Near.edge {r : ℚ} (h : x.Near r) (hlarge : 2 ^ 52 ≤ x.mantissa)
    (hr : r < 2 ^ (x.exponent + 52)) :
    x.mantissa = 2 ^ 52 ∧ (2 ^ 52 - 1 / 4) * 2 ^ x.exponent ≤ r := by
  have hscale : (0 : ℚ) < 2 ^ x.exponent := by positivity
  have hreach := x.reachBelow_le
  have hscaled : x.mantissa - x.reachBelow < 2 ^ 52 := by
    have hlt := h.low.trans_lt hr
    rw [zpow_exponent_add] at hlt
    exact_mod_cast lt_of_mul_lt_mul_right hlt hscale.le
  have hedge : x.mantissa = 2 ^ 52 := by
    have hlt : (x.mantissa : ℚ) < 2 ^ 52 + 1 := by linarith
    have hlt : x.mantissa < 2 ^ 52 + 1 := by exact_mod_cast hlt
    omega
  have hlow := h.low
  rw [reachBelow, if_pos hedge, hedge] at hlow
  exact ⟨hedge, by exact_mod_cast hlow⟩

/-- Just below the least mantissa with a leading bit a ratio is rounded on the next finer scale, to
twice the mantissa. -/
theorem roundDiv_edge {num den : Nat} (hden : 0 < den)
    (hlow : (2 ^ 52 - 1 / 4) * 2 ^ x.exponent ≤ (num : ℚ) / den)
    (hhigh : (num : ℚ) / den < 2 ^ (x.exponent + 52)) :
    (if 0 ≤ x.exponent + -1 then roundDiv num (den * 2 ^ (x.exponent + -1).toNat)
      else roundDiv (num * 2 ^ (-(x.exponent + -1)).toNat) den) = 2 ^ 53 := by
  apply roundDiv_scaled hden
  · rw [zpow_exponent_add]
    refine le_trans (le_of_eq ?_) hlow
    push_cast
    ring
  · rw [zpow_exponent_add, ← mul_assoc]
    refine hhigh.le.trans ?_
    rw [zpow_exponent_add]
    gcongr
    norm_num
  · intro hodd
    cases hodd

/-- A positive finite word is the one that the ratios near it are rounded to. -/
theorem ofRatio_of_near (hfinite : x.isFinite) (hpositive : x.isNegative = false) {num den : Nat}
    (hnum : 0 < num) (hden : 0 < den) (h : x.Near (num / den)) : ofRatio false num den = x := by
  have hlt := toNat_bits_lt hfinite hpositive
  have hbits := toNat_bits_eq hpositive
  have hleast := x.le_exponent
  have hround := h.roundDiv hden
  by_cases hsmall : x.mantissa < 2 ^ 52
  · -- Below the least leading bit the scale is the least one.
    have hexponent := exponent_of_mantissa_lt hsmall
    have hlog := (floorLog_spec hnum hden).1.trans_lt (h.lt hsmall)
    rw [zpow_lt_zpow_iff_right₀ one_lt_two] at hlog
    exact ofRatio_eq hlt hnum (by omega) hround hbits
  by_cases hreach : (2 : ℚ) ^ (x.exponent + 52) ≤ num / den
  · have hlog : floorLog num den = x.exponent + 52 :=
      floorLog_eq hnum hden hreach (by rw [add_assoc]; exact h.lt x.mantissa_lt)
    exact ofRatio_eq hlt hnum (by omega) hround hbits
  · -- Just below a power of two the scale is one finer, if there is a finer one.
    obtain ⟨hedge, hlow⟩ := h.edge (not_lt.1 hsmall) (not_le.1 hreach)
    have hlog : floorLog num den = x.exponent + 51 := by
      apply floorLog_eq hnum hden
      · rw [zpow_exponent_add]
        refine le_trans ?_ hlow
        gcongr
        norm_num
      · rw [add_assoc]
        exact not_le.1 hreach
    by_cases hlast : x.exponent = -1074
    · exact ofRatio_eq hlt hnum (by omega) hround hbits
    · apply ofRatio_eq hlt hnum (by omega) (roundDiv_edge hden hlow (not_le.1 hreach))
      rw [hbits, hedge, if_neg (by decide), if_neg (by decide)]
      omega

end Fields

end GridKernel.Binary64
