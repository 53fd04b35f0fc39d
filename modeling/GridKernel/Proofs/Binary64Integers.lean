import GridKernel.Proofs.Binary64Exact
import GridKernel.Proofs.Integers

/-! Exact integer arithmetic in double precision. Sums, differences and remainders of integers of
magnitude at most 2^53 are the integers themselves as long as they stay in this range. -/
namespace GridKernel.Binary64

open Float.Model Float.Model.UnpackedFloat

theorem canonical_normalize {M k : Int} {c : Nat} (hc : c ≤ 53) (hk : k.natAbs ≤ 2 ^ 53)
    (h : M * 2 ^ c = k * 2 ^ 52) (zero : Sign) :
    Canonical (UnpackedFloat.normalize Format.binary64 M ((c : Int) - 52) zero) k := by
  have hpow : (0 : Int) < 2 ^ c := Int.pow_pos (by decide)
  have habs : M.natAbs * 2 ^ c = k.natAbs * 2 ^ 52 := by
    have hnat := congrArg Int.natAbs h
    simpa [Int.natAbs_mul, Int.natAbs_pow] using hnat
  unfold UnpackedFloat.normalize
  rcases Int.lt_trichotomy M 0 with hM | hM | hM
  · have hneg : k < 0 := by
      have hprod : M * 2 ^ c < 0 := Int.mul_neg_of_neg_of_pos hM hpow
      omega
    have hcompare : compare M 0 = .lt := Int.compare_eq_lt.2 hM
    have hround := canonical_round (m := (-M).toNat) (k := k.natAbs) (by omega) hk hc
      (by rw [show (-M).toNat = M.natAbs by omega, habs]) .negative
    rw [hcompare]
    rwa [show Sign.negative.apply k.natAbs = k by show -(k.natAbs : Int) = k; omega] at hround
  · have hzero : k = 0 := by
      rw [hM] at h
      omega
    have hcompare : compare M 0 = .eq := Int.compare_eq_eq.2 hM
    rw [hcompare, hzero]
    exact .zero zero
  · have hpos : 0 < k := by
      have hprod : 0 < M * 2 ^ c := Int.mul_pos hM hpow
      omega
    have hcompare : compare M 0 = .gt := Int.compare_eq_gt.2 hM
    have hround := canonical_round (m := M.toNat) (k := k.natAbs) (by omega) hk hc
      (by rw [show M.toNat = M.natAbs by omega, habs]) .positive
    rw [hcompare]
    rwa [show Sign.positive.apply k.natAbs = k by show (k.natAbs : Int) = k; omega] at hround

theorem apply_mul (s : Sign) (a b : Int) : s.apply a * b = s.apply (a * b) := by
  cases s
  · exact Int.neg_mul a b
  · rfl

/-- A mantissa brought to a smaller exponent. -/
theorem aligned (s : Sign) {m c k c' : Nat} (h : Scaled m c k) (hle : c' ≤ c) :
    s.apply (m <<< ((c : Int) - 52 - ((c' : Int) - 52)).toNat : Nat) * 2 ^ c' =
      s.apply k * 2 ^ 52 := by
  have hshift : ((c : Int) - 52 - ((c' : Int) - 52)).toNat = c - c' := by omega
  have hvalue : m * 2 ^ (c - c') * 2 ^ c' = k * 2 ^ 52 := by
    rw [Nat.mul_assoc, ← Nat.pow_add, Nat.sub_add_cancel hle, h.value]
  rw [hshift, Nat.shiftLeft_eq, apply_mul, apply_mul]
  congr 1
  exact_mod_cast hvalue

theorem min_exponent (c c' : Nat) :
    min ((c : Int) - 52) ((c' : Int) - 52) = (min c c' : Nat) - 52 := by
  omega

theorem canonical_add {u v : UnpackedFloat} {a b : Int} (hu : Canonical u a)
    (hv : Canonical v b) (h : (a + b).natAbs ≤ 2 ^ 53) :
    Canonical (UnpackedFloat.add Format.binary64 u v) (a + b) := by
  cases hu with
  | zero s =>
    rw [Int.zero_add]
    cases hv with
    | zero s' => cases s <;> cases s' <;> exact .zero _
    | finite s' hm hs => exact .finite s' hm hs
  | @finite s m c k hm hs =>
    cases hv with
    | zero s' =>
      rw [Int.add_zero]
      exact .finite s hm hs
    | @finite s' m' c' k' hm' hs' =>
      have hc := hs.exponent
      unfold UnpackedFloat.add
      simp only [decreaseExponent, min_exponent]
      apply canonical_normalize (by omega) h
      rw [Int.add_mul, aligned s hs (by omega), aligned s' hs' (by omega), Int.add_mul]

theorem canonical_sub {u v : UnpackedFloat} {a b : Int} (hu : Canonical u a)
    (hv : Canonical v b) (h : (a - b).natAbs ≤ 2 ^ 53) :
    Canonical (UnpackedFloat.sub Format.binary64 u v) (a - b) := by
  cases hu with
  | zero s =>
    rw [Int.zero_sub]
    cases hv with
    | zero s' => cases s <;> cases s' <;> exact .zero _
    | @finite s' m' c' k' hm' hs' =>
      refine hs'.canonical hm' rfl rfl ?_
      cases s'
      · exact (Int.neg_neg _).symm
      · rfl
  | @finite s m c k hm hs =>
    cases hv with
    | zero s' =>
      rw [Int.sub_zero]
      exact .finite s hm hs
    | @finite s' m' c' k' hm' hs' =>
      have hc := hs.exponent
      unfold UnpackedFloat.sub
      simp only [decreaseExponent, min_exponent]
      apply canonical_normalize (by omega) h
      rw [Int.sub_mul, aligned s hs (by omega), aligned s' hs' (by omega), Int.sub_mul]

theorem Canonical.isNaN {u : UnpackedFloat} {n : Int} (h : Canonical u n) : u.isNaN = false := by
  cases h <;> rfl

theorem Holds.isNaN {x : Binary64} {n : Int} (h : Holds x n) : x.isNaN = false := by
  obtain ⟨hfinite, -⟩ := toInt?_eq_some h.2
  simp [Binary64.isNaN, isFinite, hfinite]

/-- A word of an exact integer is a number in canonical form. -/
theorem Holds.toFloat {x : Binary64} {n : Int} (h : Holds x n) :
    Canonical x.toFloat.toModel.unpack n :=
  (h.unpack.pack h.1).unpack

/-- The word of a result in canonical form. -/
theorem holds_result {u : UnpackedFloat} {n : Int} (hu : Canonical u n) (hn : n.natAbs ≤ 2 ^ 53)
    {r : Float} (hr : r = .ofModel (Float.Model.pack u)) :
    Holds (if r.isNaN then invalid else ⟨r.toBits⟩) n := by
  have hword := hu.pack hn
  have hnan : r.isNaN = false := by
    rw [hr]
    show (UnpackedFloat.unpack Format.binary64 (Float.Model.pack u).toBits.toBitVec).isNaN = false
    exact hword.unpack.isNaN
  rw [hnan, hr]
  exact hword

theorem Holds.add {x y : Binary64} {a b : Int} (hx : Holds x a) (hy : Holds y b)
    (h : (a + b).natAbs ≤ 2 ^ 53) : Holds (x.add y) (a + b) := by
  unfold Binary64.add lift
  rw [hx.isNaN, hy.isNaN]
  exact holds_result (canonical_add hx.toFloat hy.toFloat h) h rfl

theorem Holds.sub {x y : Binary64} {a b : Int} (hx : Holds x a) (hy : Holds y b)
    (h : (a - b).natAbs ≤ 2 ^ 53) : Holds (x.sub y) (a - b) := by
  unfold Binary64.sub lift
  rw [hx.isNaN, hy.isNaN]
  exact holds_result (canonical_sub hx.toFloat hy.toFloat h) h rfl

theorem Scaled.holds {m c k : Nat} (h : Scaled m c k) (hk : k ≤ 2 ^ 53) {x : Binary64}
    (hexponent : x.exponentField = c + 1023) (hfraction : x.fraction = m - 2 ^ 52) :
    Holds x (signed x.isNegative k) :=
  ⟨by rwa [natAbs_signed], h.toInt? hexponent hfraction⟩

/-- A word with the exponent and the fraction of an exact integer has its magnitude. -/
theorem Holds.of_fields {x y : Binary64} {n : Int} (h : Holds x n)
    (hexponent : y.exponentField = x.exponentField) (hfraction : y.fraction = x.fraction) :
    Holds y (signed y.isNegative n.natAbs) := by
  by_cases hn : n = 0
  · subst hn
    obtain ⟨he, hf⟩ := h.fields_zero
    have hint := toInt?_of_fields_zero (hexponent.trans he) (hfraction.trans hf)
    have hzero : signed y.isNegative 0 = 0 := by cases y.isNegative <;> rfl
    refine ⟨?_, hint.trans (congrArg some hzero.symm)⟩
    rw [natAbs_signed]
    exact Nat.zero_le _
  · obtain ⟨c, he, hs⟩ := h.scaled hn
    exact hs.holds h.1 (hexponent.trans he) (by omega)

theorem Holds.sign {x : Binary64} {n : Int} (h : Holds x n) : n = signed x.isNegative n.natAbs :=
  (toInt?_eq_some h.2).2.1

theorem Holds.neg {x : Binary64} {n : Int} (h : Holds x n) : Holds x.neg (-n) := by
  have hneg := h.of_fields (exponentField_neg x) (fraction_neg x)
  have hsign := h.sign
  have hflip : signed (!x.isNegative) n.natAbs = -signed x.isNegative n.natAbs := by
    cases x.isNegative
    · rfl
    · exact (Int.neg_neg _).symm
  rwa [isNegative_neg, hflip, ← hsign] at hneg

theorem Holds.abs {x : Binary64} {n : Int} (h : Holds x n) : Holds x.abs n.natAbs := by
  have habs := h.of_fields (exponentField_abs x) (fraction_abs x)
  rwa [isNegative_abs] at habs

theorem roundDiv_mul {q d : Nat} (hd : 0 < d) : roundDiv (q * d) d = q := by
  unfold roundDiv
  rw [Nat.mul_div_cancel _ hd, Nat.mul_mod_left, if_pos (by omega)]

theorem Scaled.exponent_eq {m c k : Nat} (h : Scaled m c k) (hk : 0 < k) : c = k.log2 := by
  have hlogs := congrArg Nat.log2 h.value
  have hpos := h.pos
  rw [log2_mul_two_pow (by omega), log2_mul_two_pow (by omega), h.log2] at hlogs
  omega

theorem floorLog_exact {k : Nat} (hk : 0 < k) (j : Nat) :
    floorLog (k * 2 ^ j) (2 ^ j) = k.log2 := by
  have hreached : 2 ^ j * 2 ^ k.log2 ≤ k * 2 ^ j := by
    rw [Nat.mul_comm]
    exact Nat.mul_le_mul_right _ (Nat.log2_self_le (by omega))
  have hlogs : ((k * 2 ^ j).log2 : Int) - ((2 ^ j).log2 : Int) = k.log2 := by
    rw [log2_mul_two_pow (by omega), Nat.log2_two_pow]
    push_cast
    omega
  unfold floorLog
  simp only [hlogs, Int.natCast_nonneg, if_true, Int.toNat_natCast, hreached]

/-- The fields of an exact integer stay below those of infinity. -/
theorem Scaled.min_infinity {m c k : Nat} (h : Scaled m c k) :
    min (m - 2 ^ 52 + (c + 1023) * 2 ^ 52) infinity.bits.toNat =
      m - 2 ^ 52 + (c + 1023) * 2 ^ 52 := by
  have hhigh := h.high
  have hc := h.exponent
  have hinfinity : infinity.bits.toNat = 2047 * 2 ^ 52 := by decide
  rw [hinfinity]
  apply Nat.min_eq_left
  omega

/-- The word nearest to an exact integer is a word of it. -/
theorem holds_ofRatio (negative : Bool) {k : Nat} (hk : k ≤ 2 ^ 53) (j : Nat) :
    Holds (ofRatio negative (k * 2 ^ j) (2 ^ j)) (signed negative k) := by
  have hj : 0 < 2 ^ j := Nat.two_pow_pos j
  suffices hmagnitude : Holds (ofRatio false (k * 2 ^ j) (2 ^ j)) k by
    cases negative
    · exact hmagnitude
    · exact hmagnitude.neg
  by_cases hzero : k = 0
  · subst hzero
    have hword : ofRatio false (0 * 2 ^ j) (2 ^ j) = ofFields false 0 0 := by
      simp [ofRatio, ofFields]
    rw [hword]
    exact ⟨by decide, toInt?_of_fields_zero (exponentField_ofFields (by decide) (by decide))
      (fraction_ofFields (by decide) (by decide))⟩
  obtain ⟨m, c, hs⟩ := exists_scaled (by omega) hk
  have hlow := hs.low
  have hhigh := hs.high
  have hc := hs.exponent
  have hlog := floorLog_exact (k := k) (by omega) j
  rw [← hs.exponent_eq (by omega)] at hlog
  have hword : ofRatio false (k * 2 ^ j) (2 ^ j) = ofFields false (c + 1023) (m - 2 ^ 52) := by
    have hne : k * 2 ^ j ≠ 0 := Nat.mul_ne_zero hzero hj.ne'
    have hexponent : max (-1074) ((c : Int) - 52) = (c : Int) - 52 := by omega
    have hmantissa : (if 0 ≤ (c : Int) - 52 then
          roundDiv (k * 2 ^ j) (2 ^ j * 2 ^ ((c : Int) - 52).toNat)
        else roundDiv (k * 2 ^ j * 2 ^ (-((c : Int) - 52)).toNat) (2 ^ j)) = m := by
      by_cases hge : 52 ≤ c
      · have hshift : ((c : Int) - 52).toNat = c - 52 := by omega
        have hsplit : k * 2 ^ j = m * (2 ^ j * 2 ^ (c - 52)) := by
          rw [← hs.magnitude hge]
          ring
        rw [if_pos (by omega), hshift, hsplit]
        exact roundDiv_mul (Nat.mul_pos hj (Nat.two_pow_pos _))
      · have hshift : (-((c : Int) - 52)).toNat = 52 - c := by omega
        have hsplit : k * 2 ^ j * 2 ^ (52 - c) = m * 2 ^ j := by
          rw [hs.mantissa (by omega)]
          ring
        rw [if_neg (by omega), hshift, hsplit]
        exact roundDiv_mul hj
    have hfield : ((c : Int) - 52 + 1075).toNat = c + 1023 := by omega
    unfold ofRatio
    simp only [hlog, hexponent, hmantissa, if_neg hne, hfield]
    rw [if_neg (Nat.not_lt.2 hlow), hs.min_infinity]
    simp only [Bool.false_eq_true, if_false, ofFields, Bool.toNat_false, Nat.zero_mul, Nat.zero_add]
    rw [Nat.add_comm]
  have he : c + 1023 < 2 ^ 11 := by omega
  have hf : m - 2 ^ 52 < 2 ^ 52 := by omega
  have hfraction : (ofFields false (c + 1023) (m - 2 ^ 52)).fraction = m - 2 ^ 52 :=
    fraction_ofFields he hf
  have hholds := hs.holds hk (exponentField_ofFields he hf) hfraction
  rwa [isNegative_ofFields he hf, ← hword] at hholds

theorem holds_ofInt {n : Int} (h : n.natAbs ≤ 2 ^ 53) : Holds (ofInt n) n := by
  have hratio := holds_ofRatio (decide (n < 0)) h 0
  have hsigned : signed (decide (n < 0)) n.natAbs = n := by
    by_cases hn : n < 0
    · rw [decide_eq_true hn]
      show -(n.natAbs : Int) = n
      omega
    · rw [decide_eq_false hn]
      show (n.natAbs : Int) = n
      omega
  rw [Nat.pow_zero, Nat.mul_one, hsigned] at hratio
  exact hratio

theorem Holds.exponentField_lt {x : Binary64} {n : Int} (h : Holds x n) :
    x.exponentField < 2 ^ 10 + 2 ^ 6 := by
  by_cases hn : n = 0
  · subst hn
    rw [h.fields_zero.1]
    decide
  · obtain ⟨c, he, hs⟩ := h.scaled hn
    have hc := hs.exponent
    omega

theorem Holds.isFinite {x : Binary64} {n : Int} (h : Holds x n) : x.isFinite = true := by
  have hexponent := h.exponentField_lt
  rw [Binary64.isFinite, bne_iff_ne]
  omega

theorem Holds.isInfinite {x : Binary64} {n : Int} (h : Holds x n) : x.isInfinite = false := by
  rw [Binary64.isInfinite, h.isFinite]
  rfl

theorem Holds.isZero {x : Binary64} {n : Int} (h : Holds x n) (hn : n ≠ 0) : x.isZero = false := by
  obtain ⟨c, he, -⟩ := h.scaled hn
  rw [Binary64.isZero, beq_eq_false_iff_ne]
  intro hbits
  have habs : x.abs.bits.toNat = 0 := congrArg UInt64.toNat hbits
  rw [toNat_abs] at habs
  rw [exponentField_eq, habs] at he
  omega

/-- A mantissa brought to an exponent is a multiple of the integer that it denotes. -/
theorem mantissa_mul {x : Binary64} {n : Int} (h : x.toInt? = some n) {e : Int}
    (he : e ≤ x.exponent) :
    x.mantissa * 2 ^ (x.exponent - e).toNat * 2 ^ e.toNat = n.natAbs * 2 ^ (-e).toNat := by
  obtain ⟨-, -, ⟨hshift, hn⟩ | ⟨hshift, hm⟩⟩ := toInt?_eq_some h
  · have hsum : (x.exponent - e).toNat + e.toNat = x.exponent.toNat + (-e).toNat := by omega
    rw [hn, Nat.mul_assoc, ← Nat.pow_add, hsum, Nat.pow_add, Nat.mul_assoc]
  · have hsum : (-x.exponent).toNat + ((x.exponent - e).toNat + e.toNat) = (-e).toNat := by omega
    rw [hm, Nat.mul_assoc, Nat.mul_assoc, ← Nat.pow_add, ← Nat.pow_add, hsum]

theorem signed_tmod {a : Int} (b : Int) {negative : Bool} (h : a = signed negative a.natAbs) :
    signed negative (a.natAbs % b.natAbs : Nat) = a.tmod b := by
  have hnat : ((a.natAbs % b.natAbs : Nat) : Int) = (a.natAbs : Int).tmod b := by
    rw [Int.ofNat_tmod]
    rcases Int.natAbs_eq b with hb | hb
    · rw [← hb]
    · rw [hb, Int.tmod_neg, Int.natAbs_neg, Int.natAbs_natCast]
  cases negative with
  | false => exact hnat.trans (congrArg (·.tmod b) h.symm)
  | true =>
    have hneg := congrArg (fun n => -n) hnat
    rw [← Int.neg_tmod] at hneg
    exact hneg.trans (congrArg (·.tmod b) h.symm)

/-- The remainder of truncated division is exact on integers. -/
theorem holds_truncatedRem {x y : Binary64} {a b : Int} (hx : Holds x a) (hy : Holds y b)
    (hb : b ≠ 0) : Holds (x.truncatedRem y) (a.tmod b) := by
  have hsmall : a.natAbs % b.natAbs ≤ 2 ^ 53 := (Nat.mod_le _ _).trans hx.1
  unfold truncatedRem
  rw [hx.isNaN, hy.isNaN, hx.isInfinite, hy.isInfinite, hy.isZero hb]
  simp only [Bool.false_eq_true, Bool.or_self, if_false]
  have ha := mantissa_mul hx.2 (Int.min_le_left x.exponent y.exponent)
  have hb := mantissa_mul hy.2 (Int.min_le_right x.exponent y.exponent)
  generalize min x.exponent y.exponent = e at ha hb ⊢
  rw [← signed_tmod b hx.sign]
  by_cases he : 0 ≤ e
  · have hzero : (-e).toNat = 0 := by omega
    rw [hzero, Nat.pow_zero, Nat.mul_one] at ha hb
    rw [if_pos he, ← Nat.mul_mod_mul_right, ha, hb]
    have hratio := holds_ofRatio x.isNegative hsmall 0
    rwa [Nat.pow_zero, Nat.mul_one] at hratio
  · have hzero : e.toNat = 0 := by omega
    rw [hzero, Nat.pow_zero, Nat.mul_one] at ha hb
    rw [if_neg he, ha, hb, Nat.mul_mod_mul_right]
    exact holds_ofRatio x.isNegative hsmall _

theorem Canonical.eq_zero {u : UnpackedFloat} (h : Canonical u 0) : ∃ s, u = .zero s := by
  generalize hn : (0 : Int) = n at h
  cases h with
  | zero s => exact ⟨s, rfl⟩
  | @finite s m c k hm hs =>
    have hvalue := hs.value
    have hk : k = 0 := by
      rw [apply_eq_signed] at hn
      rw [← natAbs_signed (isMinus s) k, ← hn]
      rfl
    rw [hk, Nat.zero_mul] at hvalue
    exact absurd hvalue (Nat.mul_pos hs.pos (Nat.two_pow_pos c)).ne'

theorem Scaled.magnitude_pos {m c k : Nat} (h : Scaled m c k) : 0 < k := by
  have hvalue := h.value
  have hpos := Nat.mul_pos h.pos (Nat.two_pow_pos c)
  omega

/-- An exact integer compares with zero as the integer does. -/
theorem Canonical.compare_zero {u : UnpackedFloat} {n : Int} (h : Canonical u n) (s : Sign) :
    u.compare (.zero s) = some (compare n 0) := by
  cases h with
  | zero s' => cases s' <;> rfl
  | @finite s' m c k hm hs =>
    have hk := hs.magnitude_pos
    cases s' with
    | negative =>
      have hlt : compare (-(k : Int)) 0 = .lt := Int.compare_eq_lt.2 (by omega)
      exact congrArg some hlt.symm
    | positive =>
      have hgt : compare (k : Int) 0 = .gt := Int.compare_eq_gt.2 (by omega)
      exact congrArg some hgt.symm

theorem Holds.compare_zero {x y : Binary64} {n : Int} (hx : Holds x n) (hy : Holds y 0) :
    x.toFloat.toModel.unpack.compare y.toFloat.toModel.unpack = some (compare n 0) := by
  obtain ⟨s, hs⟩ := hy.toFloat.eq_zero
  rw [hs]
  exact hx.toFloat.compare_zero s

theorem holds_zero : Holds zero 0 := ⟨by decide, toInt?_of_fields_zero rfl rfl⟩

theorem Holds.less_zero {x : Binary64} {n : Int} (h : Holds x n) :
    x.less zero = decide (n < 0) := by
  have hless : x.less zero = true ↔ some (compare n 0) = some .lt := by
    rw [← h.compare_zero holds_zero, less, decide_eq_true_eq]
    exact decide_eq_true_iff.trans beq_iff_eq
  rw [Bool.eq_iff_iff, hless, Option.some_inj, Int.compare_eq_lt, decide_eq_true_eq]

theorem Holds.beq_zero {x y : Binary64} {n : Int} (hx : Holds x n) (hy : Holds y 0) :
    (x.toFloat == y.toFloat) = decide (n = 0) := by
  have hbeq : (x.toFloat == y.toFloat) = (some (compare n 0) == some .eq) := by
    rw [← hx.compare_zero hy]
    rfl
  rw [hbeq, Bool.eq_iff_iff, decide_eq_true_eq, ← Int.compare_eq_eq]
  simp

theorem Holds.rem {x y : Binary64} {a b : Int} (hx : Holds x a) (hy : Holds y b) (hb : b ≠ 0) :
    Holds (x.rem y) (a % b) := by
  have hrem := holds_truncatedRem hx hy hb
  have hbound := hy.1
  have hlow := Int.emod_nonneg a hb
  have hhigh := Int.emod_lt a hb
  have hmod := Int.tmod_eq_emod (a := a) (b := b)
  unfold Binary64.rem
  simp only [hrem.less_zero]
  by_cases hneg : a.tmod b < 0
  · have hraised : a.tmod b + b.natAbs = a % b := by
      split at hmod <;> omega
    rw [if_pos (decide_eq_true hneg), ← hraised]
    exact hrem.add hy.abs (by omega)
  · have hkept : a.tmod b = a % b := by
      split at hmod <;> omega
    rw [if_neg (by simpa using hneg), ← hkept]
    exact hrem

end GridKernel.Binary64
