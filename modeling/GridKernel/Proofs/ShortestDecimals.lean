import Mathlib.Data.Nat.Cast.Order.Field
import GridKernel.Binary64.Text
import GridKernel.Proofs.Binary64Exact
import GridKernel.Proofs.Numerals
import GridKernel.Proofs.RoundedRatios

/-! Shortest decimals. The eighteenth grid below the leading digit of a positive word is finer than
the reals that round to the word, so a decimal is always found, and the decimal that is found rounds
to the word. That of a word between two integers has digits after the point. -/
namespace GridKernel.Binary64

/-- The digits of a number are as many as its size needs. -/
theorem toDigits_bounds (n : Nat) : n < 10 ^ (Nat.toDigits 10 n).length ∧
    (n ≠ 0 → 10 ^ (Nat.toDigits 10 n).length ≤ 10 * n) := by
  induction n using Nat.strongRecOn with
  | ind n ih =>
    by_cases hlt : n < 10
    · rw [Nat.toDigits_of_lt_base hlt]
      simp only [List.length_singleton]
      omega
    · obtain ⟨hupper, hlower⟩ := ih (n / 10) (by omega)
      rw [Nat.toDigits_of_base_le (by decide) (by omega), List.length_append,
        List.length_singleton, Nat.pow_succ]
      have hlower := hlower (by omega)
      omega

/-- The number of digits before the point marks a power of ten at most the ratio. -/
theorem ten_zpow_decimalLength_le {num den : Nat} (hnum : 0 < num) (hden : 0 < den) :
    (10 : ℚ) ^ (decimalLength num den - 1) ≤ num / den := by
  have hnum' : (0 : ℚ) < num := by exact_mod_cast hnum
  have hden' : (0 : ℚ) < den := by exact_mod_cast hden
  unfold decimalLength
  split
  · rename_i hle
    have hquotient := (toDigits_bounds (num / den)).2 (Nat.div_pos hle hden).ne'
    have hfloor : ((num / den : Nat) : ℚ) ≤ num / den := Nat.cast_div_le
    have hbound : (10 : ℚ) ^ (Nat.toDigits 10 (num / den)).length ≤ 10 * (num / den : Nat) := by
      exact_mod_cast hquotient
    rw [zpow_sub_one₀ (by norm_num), zpow_natCast, ← div_eq_mul_inv,
      div_le_iff₀ (by norm_num)]
    linarith
  · have hquotient := (toDigits_bounds (den / num)).1
    have hmul : den < 10 ^ (Nat.toDigits 10 (den / num)).length * num :=
      (Nat.div_lt_iff_lt_mul hnum).1 hquotient
    rw [sub_sub_cancel_left, zpow_neg, zpow_natCast, inv_le_comm₀ (by positivity) (by positivity),
      inv_div, div_le_iff₀ hnum']
    exact_mod_cast hmul.le

/-- The rational number that a decimal denotes. -/
def Decimal.exact (d : Decimal) : ℚ := d.digits * 10 ^ d.power

theorem Decimal.exact_trim (d : Decimal) (fuel : Nat) : (d.trim fuel).exact = d.exact := by
  induction fuel generalizing d with
  | zero => rfl
  | succ fuel ih =>
    unfold trim
    split
    · rename_i h
      obtain ⟨k, hk⟩ : ∃ k, d.digits = 10 * k := ⟨d.digits / 10, by omega⟩
      rw [ih]
      simp only [exact, hk, Nat.mul_div_cancel_left k (by decide : 0 < 10)]
      rw [zpow_add_one₀ (by norm_num)]
      push_cast
      ring
    · rfl

section Interval
variable {x : Binary64}

theorem den_roundingInterval_pos (x : Binary64) : 0 < x.roundingInterval.den := by
  unfold roundingInterval
  dsimp only
  split
  · exact Nat.one_pos
  · exact Nat.two_pow_pos _

/-- The interval's scale over its denominator is four units to the mantissa step. -/
theorem scale_roundingInterval (x : Binary64) :
    ((if 0 ≤ x.exponent - 2 then 2 ^ (x.exponent - 2).toNat else 1 : Nat) : ℚ) =
      2 ^ x.exponent / 4 * x.roundingInterval.den := by
  have h := two_pow_toNat (x.exponent - 2)
  rw [zpow_sub₀ two_ne_zero] at h
  unfold roundingInterval
  dsimp only
  split
  · rw [Int.toNat_of_nonpos (by omega : -(x.exponent - 2) ≤ 0)] at h
    push_cast
    rw [h]
    norm_num
  · rw [Int.toNat_of_nonpos (by omega : x.exponent - 2 ≤ 0)] at h
    push_cast
    rw [← pow_zero 2, h]
    norm_num

theorem mid_roundingInterval (x : Binary64) :
    (x.roundingInterval.mid : ℚ) = x.mantissa * 2 ^ x.exponent * x.roundingInterval.den := by
  show ((4 * x.mantissa * _ : Nat) : ℚ) = _
  rw [Nat.cast_mul, scale_roundingInterval]
  push_cast
  ring

theorem high_roundingInterval (x : Binary64) : (x.roundingInterval.high : ℚ) =
    (x.mantissa + 1 / 2) * 2 ^ x.exponent * x.roundingInterval.den := by
  show (((4 * x.mantissa + 2) * _ : Nat) : ℚ) = _
  rw [Nat.cast_mul, scale_roundingInterval]
  push_cast
  ring

theorem low_roundingInterval (hpos : 0 < x.mantissa) : (x.roundingInterval.low : ℚ) =
    (x.mantissa - x.reachBelow) * 2 ^ x.exponent * x.roundingInterval.den := by
  show (((4 * x.mantissa - if x.mantissa = 2 ^ 52 then 1 else 2) * _ : Nat) : ℚ) = _
  have hbelow : ((4 * x.mantissa - if x.mantissa = 2 ^ 52 then 1 else 2 : Nat) : ℚ) =
      4 * (x.mantissa - x.reachBelow) := by
    unfold reachBelow
    split
    · rw [Nat.cast_sub (by omega)]
      push_cast
      ring
    · rw [Nat.cast_sub (by omega)]
      push_cast
      ring
  rw [Nat.cast_mul, scale_roundingInterval, hbelow]
  ring

section Scaled
variable {bound den unit : Nat} {r : ℚ} (num : Nat) (hden : 0 < den) (hunit : 0 < unit)
  (h : (bound : ℚ) = r * den)
include hden hunit h

/-- A bound and a ratio compare as integers once both are put over the same denominator. -/
theorem scaled_le_iff : bound * unit ≤ num * den ↔ r ≤ num / unit := by
  have hden' : (0 : ℚ) < den := by exact_mod_cast hden
  have hunit' : (0 : ℚ) < unit := by exact_mod_cast hunit
  rw [le_div_iff₀ hunit', ← mul_le_mul_iff_of_pos_right hden', mul_right_comm, ← h]
  exact_mod_cast Iff.rfl

theorem le_scaled_iff : num * den ≤ bound * unit ↔ (num : ℚ) / unit ≤ r := by
  have hden' : (0 : ℚ) < den := by exact_mod_cast hden
  have hunit' : (0 : ℚ) < unit := by exact_mod_cast hunit
  rw [div_le_iff₀ hunit', ← mul_le_mul_iff_of_pos_right hden', mul_right_comm, ← h]
  exact_mod_cast Iff.rfl

end Scaled

/-- The interval of a word holds the ratios near it. -/
theorem holds_iff_near (hpos : 0 < x.mantissa) (num : Nat) {unit : Nat} (hunit : 0 < unit) :
    x.roundingInterval.holds num unit ↔ x.Near (num / unit) := by
  have hden := den_roundingInterval_pos x
  have hlow := scaled_le_iff num hden hunit (low_roundingInterval hpos)
  have hhigh := le_scaled_iff num hden hunit (high_roundingInterval x)
  have hlow' := not_congr (le_scaled_iff num hden hunit (low_roundingInterval hpos))
  have hhigh' := not_congr (scaled_le_iff num hden hunit (high_roundingInterval x))
  rw [not_le, not_le] at hlow' hhigh'
  have hclosed : x.roundingInterval.closed = (x.mantissa % 2 == 0) := rfl
  unfold RoundingInterval.holds
  dsimp only
  rw [hclosed]
  by_cases heven : x.mantissa % 2 = 0
  · simp only [heven, BEq.rfl, if_true, Bool.and_eq_true, decide_eq_true_eq, hlow, hhigh]
    exact ⟨fun h => ⟨h.1, h.2, by omega⟩, fun h => ⟨h.low, h.high⟩⟩
  · have hodd : x.mantissa % 2 = 1 := by omega
    have hopen : (x.mantissa % 2 == 0) = false := by simp [hodd]
    simp only [hopen, Bool.false_eq_true, if_false, Bool.and_eq_true, decide_eq_true_eq, hlow',
      hhigh']
    exact ⟨fun h => ⟨h.1.le, h.2.le, fun _ => h⟩, fun h => h.inside hodd⟩

/-- What is closer to a word than the smaller of its gaps reaches is near it. -/
theorem near_of_abs_lt {r : ℚ}
    (h : |r - x.mantissa * 2 ^ x.exponent| < x.reachBelow * 2 ^ x.exponent) : x.Near r := by
  have hscale : (0 : ℚ) < 2 ^ x.exponent := by positivity
  have hreach : x.reachBelow * 2 ^ x.exponent ≤ 1 / 2 * 2 ^ x.exponent :=
    mul_le_mul_of_nonneg_right x.reachBelow_le hscale.le
  obtain ⟨hlow, hhigh⟩ := abs_lt.1 h
  have hlow : (x.mantissa - x.reachBelow) * 2 ^ x.exponent < r := by linarith
  have hhigh : r < (x.mantissa + 1 / 2) * 2 ^ x.exponent := by linarith
  exact ⟨hlow.le, hhigh.le, fun _ => ⟨hlow, hhigh⟩⟩

/-- The step of a grid as the ratio that the search compares. -/
theorem ten_zpow_eq_div (p : Int) : (10 : ℚ) ^ p =
    (if 0 ≤ p then 10 ^ p.toNat else 1 : Nat) / (if 0 ≤ p then 1 else 10 ^ (-p).toNat : Nat) := by
  split
  · rename_i hp
    obtain ⟨k, rfl⟩ := Int.eq_ofNat_of_zero_le hp
    simp
  · rename_i hp
    obtain ⟨k, hk⟩ : ∃ k : Nat, p = -k := ⟨(-p).toNat, by omega⟩
    simp [hk]

/-- What a grid gives is near the word. -/
theorem near_of_onGrid? (hpos : 0 < x.mantissa) {p : Int} {n : Nat}
    (h : x.roundingInterval.onGrid? p = some n) : x.Near (n * 10 ^ p) := by
  have hnear := (holds_iff_near hpos _ (RoundingInterval.grid_unit_pos p)).1
    (RoundingInterval.holds_of_onGrid? h)
  rwa [Nat.cast_mul, mul_div_assoc, ← ten_zpow_eq_div] at hnear

/-- Of the multiples on both sides of a number one is within half a step of it. -/
theorem closest_multiple {step part reach : ℚ} (n : Nat) (hstep : 0 < step) (hpart : 0 ≤ part)
    (hpart' : part < 1) (hreach : step < 2 * reach) :
    |n * step - (n * step + part * step)| < reach ∨
      |(n + 1 : Nat) * step - (n * step + part * step)| < reach := by
  have hnonneg : 0 ≤ part * step := mul_nonneg hpart hstep.le
  have hlt : part * step < step := by simpa using mul_lt_mul_of_pos_right hpart' hstep
  push_cast
  by_cases hhalf : part * step < step / 2
  · left
    rw [abs_lt]
    constructor <;> linarith
  · right
    rw [abs_lt]
    constructor <;> linarith

/-- A grid whose step is below twice the smaller reach of a word has a neighbour of the word that
is near it. -/
theorem exists_onGrid? (hpos : 0 < x.mantissa) {p : Int}
    (hfine : (10 : ℚ) ^ p < 2 * (x.reachBelow * 2 ^ x.exponent)) :
    ∃ n, x.roundingInterval.onGrid? p = some n := by
  have hunit := RoundingInterval.grid_unit_pos p
  have hden := den_roundingInterval_pos x
  have hstep := ten_zpow_eq_div p
  have hmid := mid_roundingInterval x
  have hholds (k : Nat) := holds_iff_near hpos (k * if 0 ≤ p then 10 ^ p.toNat else 1) hunit
  simp only [Nat.cast_mul, mul_div_assoc, ← hstep] at hholds
  have hup : 0 < if 0 ≤ p then 10 ^ p.toNat else 1 := by
    split
    · exact Nat.pow_pos (by decide)
    · exact Nat.one_pos
  unfold RoundingInterval.onGrid?
  dsimp only
  generalize (if 0 ≤ p then 10 ^ p.toNat else 1) = up at hstep hholds hup ⊢
  generalize (if 0 ≤ p then 1 else 10 ^ (-p).toNat) = down at hunit hstep hholds ⊢
  generalize x.roundingInterval.den = den at hden hmid ⊢
  generalize x.roundingInterval.mid = mid at hmid ⊢
  have hdiv := Nat.div_add_mod (mid * down) (up * den)
  have hmod := Nat.mod_lt (mid * down) (Nat.mul_pos hup hden)
  generalize mid * down / (up * den) = n at hdiv ⊢
  generalize mid * down % (up * den) = r at hdiv hmod ⊢
  have hup' : (0 : ℚ) < up := by exact_mod_cast hup
  have hden' : (0 : ℚ) < den := by exact_mod_cast hden
  have hunit' : (0 : ℚ) < down := by exact_mod_cast hunit
  -- The word stands a part of one step above its lower neighbour.
  have hword : (x.mantissa : ℚ) * 2 ^ x.exponent = n * 10 ^ p + r / (up * den) * 10 ^ p := by
    have hcast : (up * den * n + r : ℚ) = mid * down := by exact_mod_cast hdiv
    rw [hstep, ← mul_left_inj' hden'.ne', ← hmid, ← mul_left_inj' hunit'.ne', ← hcast]
    field_simp
  have hpart : (r : ℚ) / (up * den) < 1 := by
    rw [div_lt_one (by positivity)]
    exact_mod_cast hmod
  have hclosest := closest_multiple n (by positivity : (0 : ℚ) < 10 ^ p) (by positivity) hpart hfine
  rw [← hword] at hclosest
  rcases hclosest with hlower | hupper
  · rw [(hholds n).2 (near_of_abs_lt hlower)]
    cases x.roundingInterval.holds ((n + 1) * up) down <;> exact ⟨_, rfl⟩
  · rw [(hholds (n + 1)).2 (near_of_abs_lt hupper)]
    cases x.roundingInterval.holds (n * up) down <;> exact ⟨_, rfl⟩

theorem exists_firstHit {i : RoundingInterval} {grids : List Int} {p : Int} {n : Nat}
    (hp : p ∈ grids) (hn : i.onGrid? p = some n) : ∃ d, i.firstHit grids = some d := by
  induction grids with
  | nil => cases hp
  | cons q qs ih =>
    unfold RoundingInterval.firstHit
    split
    · exact ⟨_, rfl⟩
    · rename_i hnone
      rcases List.mem_cons.1 hp with rfl | hp
      · rw [hnone] at hn
        cases hn
      · exact ih hp

/-- Seventeen digits are enough: the step of the last grid is less than twice the smaller reach. -/
theorem last_grid_lt (hpos : 0 < x.mantissa) :
    (10 : ℚ) ^ (decimalLength x.roundingInterval.mid x.roundingInterval.den - 17) <
      2 * (x.reachBelow * 2 ^ x.exponent) := by
  have hden := den_roundingInterval_pos x
  have hden' : (0 : ℚ) < x.roundingInterval.den := by exact_mod_cast hden
  have hmantissa : (0 : ℚ) < x.mantissa := by exact_mod_cast hpos
  have hscale : (0 : ℚ) < 2 ^ x.exponent := by positivity
  have hmid := mid_roundingInterval x
  have hvalue := (div_eq_iff hden'.ne').2 hmid
  have hmidpos : 0 < x.roundingInterval.mid := by
    have : (0 : ℚ) < x.roundingInterval.mid := by rw [hmid]; positivity
    exact_mod_cast this
  have hleading := ten_zpow_decimalLength_le hmidpos hden
  rw [hvalue] at hleading
  -- A mantissa is at most 2^54 times the smaller reach.
  have hreach : (x.mantissa : ℚ) ≤ 2 ^ 54 * x.reachBelow := by
    unfold reachBelow
    split
    · rename_i hedge
      rw [hedge]
      norm_num
    · have : (x.mantissa : ℚ) < 2 ^ 53 := by exact_mod_cast x.mantissa_lt
      linarith
  have hreach' : (0 : ℚ) < x.reachBelow := by linarith
  calc (10 : ℚ) ^ (decimalLength x.roundingInterval.mid x.roundingInterval.den - 17)
      = 10 ^ (decimalLength x.roundingInterval.mid x.roundingInterval.den - 1) / 10 ^ 16 := by
        rw [← zpow_natCast, ← zpow_sub₀ (by norm_num)]
        congr 1
        push_cast
        ring
    _ ≤ x.mantissa * 2 ^ x.exponent / 10 ^ 16 := by gcongr
    _ ≤ 2 ^ 54 * x.reachBelow * 2 ^ x.exponent / 10 ^ 16 := by gcongr
    _ = 2 ^ 54 / 10 ^ 16 * (x.reachBelow * 2 ^ x.exponent) := by ring
    _ < 2 * (x.reachBelow * 2 ^ x.exponent) := by
      gcongr
      norm_num

/-- The shortest decimal of a word other than zero is near it. -/
theorem near_shortest (hpos : 0 < x.mantissa) : x.Near x.shortest.exact := by
  obtain ⟨n, hn⟩ := exists_onGrid? hpos (last_grid_lt hpos)
  have hlast : decimalLength x.roundingInterval.mid x.roundingInterval.den - 17 ∈
      (List.range 19).map fun (n : Nat) =>
        decimalLength x.roundingInterval.mid x.roundingInterval.den + 1 - (n : Int) :=
    List.mem_map.2 ⟨18, by decide, by omega⟩
  obtain ⟨d, hd⟩ := exists_firstHit hlast hn
  have hshortest : x.shortest = d.trim 400 := by
    unfold shortest
    dsimp only
    rw [hd]
  rw [hshortest, Decimal.exact_trim]
  exact near_of_onGrid? hpos (RoundingInterval.onGrid?_of_firstHit hd)

theorem mantissa_abs (x : Binary64) : x.abs.mantissa = x.mantissa := by
  rw [mantissa, mantissa, exponentField_abs, fraction_abs]

theorem exponent_abs (x : Binary64) : x.abs.exponent = x.exponent := by
  rw [exponent, exponent, exponentField_abs]

theorem isFinite_abs (x : Binary64) : x.abs.isFinite = x.isFinite := by
  rw [isFinite, isFinite, exponentField_abs]

/-- What is near a word is near its magnitude. -/
theorem Near.abs {r : ℚ} (h : x.Near r) : x.abs.Near r := by
  have hreach : x.abs.reachBelow = x.reachBelow := by rw [reachBelow, reachBelow, mantissa_abs]
  constructor
  · rw [mantissa_abs, exponent_abs, hreach]
    exact h.low
  · rw [mantissa_abs, exponent_abs]
    exact h.high
  · rw [mantissa_abs, exponent_abs, hreach]
    exact h.inside

/-- A finite word that denotes no integer has a point inside its mantissa. -/
theorem exponent_neg_of_toInt? (hfinite : x.isFinite) (hint : x.toInt? = none) :
    x.exponent < 0 ∧ x.mantissa % 2 ^ (-x.exponent).toNat ≠ 0 := by
  rw [toInt?_eq, hfinite, if_neg (by decide)] at hint
  split at hint
  · cases hint
  · rename_i hexponent
    split at hint
    · cases hint
    · rename_i hmod
      exact ⟨not_le.1 hexponent, hmod⟩

theorem mantissa_pos_of_toInt? (hfinite : x.isFinite) (hint : x.toInt? = none) :
    0 < x.mantissa := by
  obtain ⟨-, hmod⟩ := exponent_neg_of_toInt? hfinite hint
  apply Nat.pos_of_ne_zero
  intro hzero
  exact hmod (by rw [hzero, Nat.zero_mod])

theorem isZero_of_toInt? (hfinite : x.isFinite) (hint : x.toInt? = none) : x.isZero = false := by
  have hpos := mantissa_pos_of_toInt? hfinite hint
  rw [isZero, beq_eq_false_iff_ne]
  intro hbits
  have habs : x.abs = ⟨0⟩ := congrArg mk hbits
  rw [← mantissa_abs, habs] at hpos
  exact absurd hpos (by decide)

/-- No integer is near a word that denotes none. -/
theorem not_near_integer (hfinite : x.isFinite) (hint : x.toInt? = none) (k : Nat) :
    ¬ x.Near k := by
  rintro ⟨hlow, hhigh, -⟩
  obtain ⟨hexponent, hmod⟩ := exponent_neg_of_toInt? hfinite hint
  obtain ⟨s, hs⟩ : ∃ s : Nat, x.exponent = -s := ⟨(-x.exponent).toNat, by omega⟩
  have hscale : (0 : ℚ) < 2 ^ s := by positivity
  have hreach := x.reachBelow_le
  rw [hs, Int.neg_neg, Int.toNat_natCast] at hmod
  rw [hs, zpow_neg, zpow_natCast, ← div_eq_mul_inv, div_le_iff₀ hscale] at hlow
  rw [hs, zpow_neg, zpow_natCast, ← div_eq_mul_inv, le_div_iff₀ hscale] at hhigh
  have hbelow : x.mantissa < k * 2 ^ s + 1 := by
    have : (x.mantissa : ℚ) < k * 2 ^ s + 1 := by linarith
    exact_mod_cast this
  have habove : k * 2 ^ s < x.mantissa + 1 := by
    have : (k : ℚ) * 2 ^ s < x.mantissa + 1 := by linarith
    exact_mod_cast this
  have heq : x.mantissa = k * 2 ^ s := by omega
  exact hmod (by rw [heq, Nat.mul_mod_left])

/-- The shortest decimal of a word between two integers has digits after the point, and read with
them rounds to the magnitude of the word. -/
theorem ofRatio_shortest (hfinite : x.isFinite) (hint : x.toInt? = none) :
    x.shortest.power < 0 ∧
      ofRatio false x.shortest.digits (10 ^ (-x.shortest.power).toNat) = x.abs := by
  have hpos := mantissa_pos_of_toInt? hfinite hint
  have hnear := near_shortest hpos
  have hpower : x.shortest.power < 0 := by
    by_contra hpower
    obtain ⟨k, hk⟩ := Int.eq_ofNat_of_zero_le (not_lt.1 hpower)
    apply not_near_integer hfinite hint (x.shortest.digits * 10 ^ k)
    simpa [Decimal.exact, hk] using hnear
  have hexact : x.shortest.exact =
      x.shortest.digits / (10 ^ (-x.shortest.power).toNat : Nat) := by
    obtain ⟨k, hk⟩ : ∃ k : Nat, x.shortest.power = -k := ⟨(-x.shortest.power).toNat, by omega⟩
    simp [Decimal.exact, hk, div_eq_mul_inv]
  have hdigits : 0 < x.shortest.digits := by
    have hreach := x.reachBelow_le
    have hone : (1 : ℚ) ≤ x.mantissa := by exact_mod_cast hpos
    have hlow : (0 : ℚ) < (x.mantissa - x.reachBelow) * 2 ^ x.exponent :=
      mul_pos (by linarith) (by positivity)
    apply Nat.pos_of_ne_zero
    intro hzero
    have := hlow.trans_le hnear.low
    simp [Decimal.exact, hzero] at this
  rw [hexact] at hnear
  exact ⟨hpower, ofRatio_of_near (isFinite_abs x ▸ hfinite) (isNegative_abs x) hdigits
    (Nat.pow_pos (by decide)) hnear.abs⟩

/-- An integer with a zero after the point rounds to the magnitude of the word that denotes it. -/
theorem ofRatio_toInt? {n : Int} (h : x.toInt? = some n) :
    ofRatio false (10 * n.natAbs) 10 = x.abs := by
  obtain ⟨hfield, -, hscaled⟩ := toInt?_eq_some h
  have hfinite : x.abs.isFinite := by
    rw [isFinite_abs, isFinite, bne_iff_ne]
    exact hfield
  have hvalue : (n.natAbs : ℚ) = x.mantissa * 2 ^ x.exponent := by
    have hpow := two_pow_toNat x.exponent
    rcases hscaled with ⟨hexponent, hn⟩ | ⟨hexponent, hn⟩
    · rw [Int.toNat_of_nonpos (by omega : -x.exponent ≤ 0), pow_zero, mul_one] at hpow
      rw [hn, ← hpow]
      push_cast
      rfl
    · rw [Int.toNat_of_nonpos hexponent.le, pow_zero] at hpow
      rw [hn]
      push_cast
      rw [mul_assoc, mul_comm (2 ^ _ : ℚ), ← hpow, mul_one]
  have hscale : (0 : ℚ) < 2 ^ x.exponent := by positivity
  by_cases hzero : x.mantissa = 0
  · have hn : n.natAbs = 0 := by
      rw [hzero] at hvalue
      simpa using hvalue
    have hbits := toNat_bits_eq (isNegative_abs x)
    rw [mantissa_abs, hzero, if_pos (by decide)] at hbits
    have habs : x.abs = ⟨0⟩ := congrArg mk (UInt64.toNat_inj.1 hbits)
    rw [hn, habs]
    decide
  · have hone : (1 : ℚ) ≤ x.mantissa := by exact_mod_cast Nat.pos_of_ne_zero hzero
    have hratio : ((10 * n.natAbs : Nat) : ℚ) / (10 : Nat) = x.mantissa * 2 ^ x.exponent := by
      rw [← hvalue]
      push_cast
      exact mul_div_cancel_left₀ _ (by norm_num)
    have hn : 0 < n.natAbs := by
      have : (0 : ℚ) < n.natAbs := by
        rw [hvalue]
        positivity
      exact_mod_cast this
    apply ofRatio_of_near hfinite (isNegative_abs x) (by omega) (by decide)
    apply Near.abs
    apply near_of_abs_lt
    rw [hratio, sub_self, abs_zero]
    apply mul_pos _ hscale
    unfold reachBelow
    split <;> norm_num

end Interval

/-- Digits with a point among them, and the word that their number is rounded to. -/
structure Rounds (whole fraction : List Char) (x : Binary64) : Prop where
  whole_ne_nil : whole ≠ []
  fraction_ne_nil : fraction ≠ []
  digits : ∀ c ∈ whole ++ fraction, c.isDigit
  rounds : ofRatio false (Nat.ofDigitChars 10 (whole ++ fraction) 0) (10 ^ fraction.length) = x

theorem Rounds.head_isDigit {whole fraction : List Char} {x : Binary64}
    (h : Rounds whole fraction x) : ∃ c ∈ (whole ++ '.' :: fraction).head?, c.isDigit := by
  obtain ⟨c, cs, rfl⟩ := List.exists_cons_of_ne_nil h.whole_ne_nil
  exact ⟨c, rfl, h.digits c (List.mem_append_left _ List.mem_cons_self)⟩

/-- A decimal with digits after the point, written in positional notation. -/
theorem Decimal.exists_positional {d : Decimal} (h : d.power < 0) : ∃ whole fraction,
    d.positional.toList = whole ++ '.' :: fraction ∧ whole ≠ [] ∧
      fraction.length = (-d.power).toNat ∧ (∀ c ∈ whole ++ fraction, c.isDigit) ∧
      Nat.ofDigitChars 10 (whole ++ fraction) 0 = d.digits := by
  have hdigits : ∀ c ∈ Nat.toDigits 10 d.digits, c.isDigit := Json.Numeral.isDigit_toDigits
  have hne := Nat.length_toDigits_pos (b := 10) (n := d.digits)
  unfold positional
  dsimp only
  rw [if_neg (not_le.2 h)]
  generalize hplaces : (-d.power).toNat = places
  generalize hs : Nat.toDigits 10 d.digits = s at hdigits hne ⊢
  have hvalue : Nat.ofDigitChars 10 s 0 = d.digits := hs ▸ Nat.ofDigitChars_ten_toDigits
  split
  · rename_i hlt
    refine ⟨s.take (s.length - places), s.drop (s.length - places), ?_, ?_, ?_, ?_, ?_⟩
    · simp
    · intro hnil
      have := congrArg List.length hnil
      simp only [List.length_take, List.length_nil] at this
      omega
    · rw [List.length_drop]
      omega
    · rwa [List.take_append_drop]
    · rw [List.take_append_drop]
      exact hvalue
  · rename_i hge
    refine ⟨['0'], List.replicate (places - s.length) '0' ++ s, ?_, by simp, ?_, ?_, ?_⟩
    · show ("0." ++ String.ofList (List.replicate (places - s.length) '0') ++
        String.ofList s).toList = _
      simp
    · rw [List.length_append, List.length_replicate]
      omega
    · intro c hc
      rcases List.mem_append.1 hc with hc | hc
      · rw [List.mem_singleton.1 hc]
        rfl
      rcases List.mem_append.1 hc with hc | hc
      · rw [List.eq_of_mem_replicate hc]
        rfl
      · exact hdigits c hc
    · rw [Nat.ofDigitChars_append, Nat.ofDigitChars_append]
      show Nat.ofDigitChars 10 s (Nat.ofDigitChars 10 (List.replicate _ '0') 0) = _
      rw [Nat.ofDigitChars_replicate_zero, Nat.mul_zero]
      exact hvalue

/-- The text of a finite word is its sign and digits with a point that round to its magnitude. -/
theorem exists_literal {x : Binary64} (hfinite : x.isFinite) : ∃ whole fraction,
    x.literal.toList = (if x.isNegative then ['-'] else []) ++ (whole ++ '.' :: fraction) ∧
      Rounds whole fraction x.abs := by
  have hsign : (if x.isNegative then "-" else "").toList =
      if x.isNegative then ['-'] else [] := by
    cases x.isNegative <;> rfl
  cases hint : x.toInt? with
  | some n =>
    have hliteral : x.literal =
        (if x.isNegative then "-" else "") ++ toString n.natAbs ++ ".0" := by
      unfold literal
      rw [hint]
      rfl
    refine ⟨Nat.toDigits 10 n.natAbs, ['0'], ?_, ?_⟩
    · rw [hliteral]
      simp [hsign, Nat.repr_eq_ofList_toDigits]
    · refine ⟨Nat.toDigits_ne_nil, by simp, ?_, ?_⟩
      · intro c hc
        rcases List.mem_append.1 hc with hc | hc
        · exact Json.Numeral.isDigit_toDigits c hc
        · rw [List.mem_singleton.1 hc]
          rfl
      · rw [Nat.ofDigitChars_append, Nat.ofDigitChars_ten_toDigits]
        exact ofRatio_toInt? hint
  | none =>
    obtain ⟨hpower, hrounds⟩ := ofRatio_shortest hfinite hint
    obtain ⟨whole, fraction, htext, hwhole, hlength, hdigits, hvalue⟩ :=
      Decimal.exists_positional hpower
    have hliteral : x.literal =
        (if x.isNegative then "-" else "") ++ x.shortest.positional := by
      have hnan : x.isNaN = false := by rw [isNaN, hfinite, Bool.not_true, Bool.false_and]
      have hinfinite : x.isInfinite = false := by
        rw [isInfinite, hfinite, Bool.not_true, Bool.false_and]
      unfold literal
      rw [hint]
      dsimp only
      rw [plain, hnan, hinfinite, isZero_of_toInt? hfinite hint, if_neg (by decide),
        if_neg (by decide), if_neg (by decide)]
      rfl
    refine ⟨whole, fraction, ?_, hwhole, ?_, hdigits, ?_⟩
    · rw [hliteral, String.toList_append, hsign, htext]
    · intro hnil
      rw [hnil, List.length_nil] at hlength
      omega
    · rw [hvalue, hlength]
      exact hrounds

end GridKernel.Binary64
