import Mathlib.Tactic.Ring
import GridKernel.Proofs.Binary64Fields

/-! Integers in double precision. A word that denotes an integer of magnitude at most 2^53 unpacks
to a mantissa of 53 bits and the exponent that scales it, and rounding such an integer changes
nothing. -/
namespace GridKernel.Binary64

open Float.Model Float.Model.UnpackedFloat

/-- A word denotes an integer of magnitude at most 2^53. -/
def Holds (x : Binary64) (n : Int) : Prop := n.natAbs ≤ 2 ^ 53 ∧ x.toInt? = some n

def signed (negative : Bool) (k : Nat) : Int := if negative then -k else k

@[simp] theorem natAbs_signed (negative : Bool) (k : Nat) : (signed negative k).natAbs = k := by
  cases negative
  · rfl
  · exact Int.natAbs_neg k

theorem toInt?_eq (x : Binary64) :
    x.toInt? =
      if !x.isFinite then none
      else if 0 ≤ x.exponent then
        some (signed x.isNegative (x.mantissa * 2 ^ x.exponent.toNat))
      else if x.mantissa % 2 ^ (-x.exponent).toNat = 0 then
        some (signed x.isNegative (x.mantissa / 2 ^ (-x.exponent).toNat))
      else none := rfl

/-- A mantissa of 53 bits with the exponent `c - 52` denotes a magnitude. -/
structure Scaled (m c k : Nat) : Prop where
  low : 2 ^ 52 ≤ m
  high : m < 2 ^ 53
  exponent : c ≤ 53
  value : m * 2 ^ c = k * 2 ^ 52

theorem exists_scaled {k : Nat} (hpos : 0 < k) (hk : k ≤ 2 ^ 53) : ∃ m c, Scaled m c k := by
  have hlow : 2 ^ k.log2 ≤ k := Nat.log2_self_le (by omega)
  have hhigh : k < 2 ^ (k.log2 + 1) := Nat.lt_log2_self
  by_cases hlog : k.log2 ≤ 52
  · have hsplit : 2 ^ 52 = 2 ^ (52 - k.log2) * 2 ^ k.log2 := by
      rw [← Nat.pow_add]
      congr 1
      omega
    refine ⟨k * 2 ^ (52 - k.log2), k.log2, ?_, ?_, by omega, ?_⟩
    · rw [hsplit, Nat.mul_comm]
      exact Nat.mul_le_mul_right _ hlow
    · rw [show 53 = 52 - k.log2 + (k.log2 + 1) by omega, Nat.pow_add, Nat.mul_comm]
      exact Nat.mul_lt_mul_of_pos_left hhigh (Nat.two_pow_pos _)
    · rw [hsplit, Nat.mul_assoc]
  · have hmono : 2 ^ 53 ≤ 2 ^ k.log2 := Nat.pow_le_pow_right (by decide) (by omega)
    obtain rfl : k = 2 ^ 53 := by omega
    exact ⟨2 ^ 52, 53, by decide, by decide, by decide, by decide⟩

theorem Scaled.log2 {m c k : Nat} (h : Scaled m c k) : m.log2 = 52 := by
  have hne : m ≠ 0 := by
    have := h.low
    omega
  exact (Nat.log2_eq_iff hne).2 ⟨h.low, h.high⟩

theorem Scaled.pos {m c k : Nat} (h : Scaled m c k) : 0 < m :=
  Nat.lt_of_lt_of_le (by decide) h.low

theorem Scaled.magnitude {m c k : Nat} (h : Scaled m c k) (hc : 52 ≤ c) :
    m * 2 ^ (c - 52) = k := by
  have hvalue := h.value
  have hpow : 2 ^ c = 2 ^ (c - 52) * 2 ^ 52 := by rw [← Nat.pow_add, Nat.sub_add_cancel hc]
  rw [hpow, ← Nat.mul_assoc] at hvalue
  exact Nat.eq_of_mul_eq_mul_right (by decide) hvalue

theorem Scaled.mantissa {m c k : Nat} (h : Scaled m c k) (hc : c ≤ 52) :
    m = k * 2 ^ (52 - c) := by
  have hvalue := h.value
  have hpow : 2 ^ 52 = 2 ^ (52 - c) * 2 ^ c := by rw [← Nat.pow_add, Nat.sub_add_cancel hc]
  rw [hpow, ← Nat.mul_assoc] at hvalue
  exact Nat.eq_of_mul_eq_mul_right (Nat.two_pow_pos c) hvalue

/-- The integer that a word with scaled fields denotes. -/
theorem Scaled.toInt? {m c k : Nat} (h : Scaled m c k) {x : Binary64}
    (hexponent : x.exponentField = c + 1023) (hfraction : x.fraction = m - 2 ^ 52) :
    x.toInt? = some (signed x.isNegative k) := by
  have hlow := h.low
  have hc := h.exponent
  have hfinite : x.isFinite = true := by
    rw [isFinite, hexponent, bne_iff_ne]
    omega
  have hshift : x.exponent = (c : Int) - 52 := by
    rw [Binary64.exponent, if_neg (by omega), hexponent]
    omega
  have hmantissa : x.mantissa = m := by
    rw [Binary64.mantissa, if_neg (by omega), hfraction]
    omega
  rw [toInt?_eq, hfinite, hshift, hmantissa, if_neg (by decide)]
  by_cases hge : 52 ≤ c
  · have hexp : ((c : Int) - 52).toNat = c - 52 := by omega
    rw [if_pos (by omega), hexp, h.magnitude hge]
  · have hexp : (-((c : Int) - 52)).toNat = 52 - c := by omega
    rw [if_neg (by omega), hexp, h.mantissa (by omega), Nat.mul_mod_left, if_pos rfl,
      Nat.mul_div_cancel _ (Nat.two_pow_pos _)]

/-- A word that denotes an integer scales its magnitude by a power of two. -/
theorem toInt?_eq_some {x : Binary64} {n : Int} (h : x.toInt? = some n) :
    x.exponentField ≠ 2047 ∧ n = signed x.isNegative n.natAbs ∧
      (0 ≤ x.exponent ∧ n.natAbs = x.mantissa * 2 ^ x.exponent.toNat ∨
        x.exponent < 0 ∧ x.mantissa = n.natAbs * 2 ^ (-x.exponent).toNat) := by
  rw [toInt?_eq] at h
  by_cases hfinite : x.isFinite
  · have hexponent : x.exponentField ≠ 2047 := by simpa [isFinite] using hfinite
    rw [hfinite, if_neg (by decide)] at h
    refine ⟨hexponent, ?_⟩
    by_cases hshift : 0 ≤ x.exponent
    · rw [if_pos hshift] at h
      obtain rfl := Option.some.inj h
      rw [natAbs_signed]
      exact ⟨rfl, .inl ⟨hshift, rfl⟩⟩
    · rw [if_neg hshift, Option.ite_none_right_eq_some] at h
      obtain ⟨hmod, hsome⟩ := h
      obtain rfl := Option.some.inj hsome
      rw [natAbs_signed]
      exact ⟨rfl, .inr ⟨by omega, (Nat.div_mul_cancel (Nat.dvd_of_mod_eq_zero hmod)).symm⟩⟩
  · simp [hfinite] at h

theorem Holds.fields_zero {x : Binary64} (h : Holds x 0) :
    x.exponentField = 0 ∧ x.fraction = 0 := by
  have hmantissa : x.mantissa = 0 := by
    obtain ⟨-, -, ⟨-, hk⟩ | ⟨-, hk⟩⟩ := toInt?_eq_some h.2
    · rcases Nat.mul_eq_zero.1 hk.symm with hk | hk
      · exact hk
      · exact absurd hk (Nat.two_pow_pos _).ne'
    · simpa using hk
  unfold mantissa at hmantissa
  split at hmantissa
  · rename_i hexponent
    exact ⟨hexponent, hmantissa⟩
  · omega

/-- The fields of a word that denotes an integer other than zero are scaled. -/
theorem Holds.scaled {x : Binary64} {n : Int} (h : Holds x n) (hn : n ≠ 0) :
    ∃ c, x.exponentField = c + 1023 ∧ Scaled (2 ^ 52 + x.fraction) c n.natAbs := by
  obtain ⟨hbound, hint⟩ := h
  have hfraction := x.fraction_lt
  obtain ⟨-, -, hcases⟩ := toInt?_eq_some hint
  have hpos : 0 < n.natAbs := by omega
  unfold exponent mantissa at hcases
  by_cases hsub : x.exponentField = 0
  · rw [if_pos hsub, if_pos hsub] at hcases
    rcases hcases with ⟨hshift, -⟩ | ⟨-, hk⟩
    · omega
    · have hpow : 2 ^ 52 ≤ 2 ^ (-(-1074 : Int)).toNat :=
        Nat.pow_le_pow_right (by decide) (by decide)
      have hle := Nat.mul_le_mul hpos hpow
      rw [← hk] at hle
      omega
  rw [if_neg hsub, if_neg hsub] at hcases
  rcases hcases with ⟨hshift, hk⟩ | ⟨hshift, hk⟩
  · have hsmall : x.exponentField ≤ 1076 := by
      by_contra hlarge
      have hpow : 2 ^ 2 ≤ 2 ^ ((x.exponentField : Int) - 1075).toNat :=
        Nat.pow_le_pow_right (by decide) (by omega)
      have hle := Nat.mul_le_mul (Nat.le_add_right (2 ^ 52) x.fraction) hpow
      omega
    refine ⟨x.exponentField - 1023, by omega, by omega, by omega, by omega, ?_⟩
    have hsplit : x.exponentField - 1023 = ((x.exponentField : Int) - 1075).toNat + 52 := by omega
    rw [hsplit, Nat.pow_add, ← Nat.mul_assoc, ← hk]
  · have hlarge : 1023 ≤ x.exponentField := by
      by_contra hsmall
      have hpow : 2 ^ 53 ≤ 2 ^ (-((x.exponentField : Int) - 1075)).toNat :=
        Nat.pow_le_pow_right (by decide) (by omega)
      have hle := Nat.mul_le_mul hpos hpow
      omega
    refine ⟨x.exponentField - 1023, by omega, by omega, by omega, by omega, ?_⟩
    have hsum : (-((x.exponentField : Int) - 1075)).toNat + (x.exponentField - 1023) = 52 := by
      omega
    rw [hk, Nat.mul_assoc, ← Nat.pow_add, hsum]

/-- An unpacked number in the form that rounding leaves an integer in. -/
inductive Canonical : UnpackedFloat → Int → Prop where
  | zero (s : Sign) : Canonical (.zero s) 0
  | finite (s : Sign) {m c k : Nat} (hm : 0 < m) (h : Scaled m c k) :
    Canonical (.finite s m ((c : Int) - 52) hm) (s.apply k)

theorem Scaled.canonical {m c k : Nat} (h : Scaled m c k) {s : Sign} {mantissa : Nat}
    {exponent n : Int} (hpos : 0 < mantissa) (hm : mantissa = m) (he : exponent = (c : Int) - 52)
    (hn : s.apply k = n) : Canonical (.finite s mantissa exponent hpos) n := by
  subst hm he hn
  exact .finite s hpos h

theorem toNat_unpackMantissa (x : Binary64) :
    (@unpackMantissa Format.binary64 x.bits.toBitVec).toNat = x.fraction := by
  rw [fraction_eq]
  simp [unpackMantissa]

theorem toNat_unpackExponent (x : Binary64) :
    (@unpackExponent Format.binary64 x.bits.toBitVec).toNat = x.exponentField := by
  rw [exponentField_eq]
  simp only [unpackExponent, BitVec.toNat_cast, BitVec.extractLsb_toNat, UInt64.toNat_toBitVec,
    Nat.shiftRight_eq_div_pow]
  omega

theorem apply_unpackSign (x : Binary64) (k : Nat) :
    (Sign.ofBitVec (@unpackSign Format.binary64 x.bits.toBitVec)).apply k =
      signed x.isNegative k := by
  have hlt := x.bits.toNat_lt
  have hzero : @unpackSign Format.binary64 x.bits.toBitVec = 0#1 ↔
      x.isNegative = false := by
    rw [← BitVec.toNat_inj, isNegative_eq, decide_eq_false_iff_not]
    show (BitVec.extractLsb 63 63 x.bits.toBitVec).toNat = _ ↔ _
    simp only [BitVec.extractLsb_toNat, UInt64.toNat_toBitVec, Nat.shiftRight_eq_div_pow,
      BitVec.toNat_ofNat]
    omega
  unfold Sign.ofBitVec
  by_cases hsign : x.isNegative = false
  · rw [if_pos (hzero.2 hsign), hsign]
    rfl
  · rw [if_neg (mt hzero.1 hsign), (Bool.not_eq_false _).mp hsign]
    rfl

/-- The word of an exact integer unpacks to its canonical form. -/
theorem Holds.unpack {x : Binary64} {n : Int} (h : Holds x n) :
    Canonical (UnpackedFloat.unpack Format.binary64 x.bits.toBitVec) n := by
  have hmantissa := toNat_unpackMantissa x
  have hexponent := toNat_unpackExponent x
  unfold UnpackedFloat.unpack
  by_cases hn : n = 0
  · subst hn
    obtain ⟨he, hf⟩ := h.fields_zero
    have hzero : @unpackExponent Format.binary64 x.bits.toBitVec = 0#_ :=
      BitVec.toNat_inj.1 (hexponent.trans he)
    have hnone : @unpackMantissa Format.binary64 x.bits.toBitVec = 0#_ :=
      BitVec.toNat_inj.1 (hmantissa.trans hf)
    have hinf : @unpackExponent Format.binary64 x.bits.toBitVec ≠ -1#_ := by
      rw [hzero]
      decide
    rw [if_neg hinf, if_pos hzero, dif_pos hnone]
    exact .zero _
  · obtain ⟨c, he, hs⟩ := h.scaled hn
    have hc := hs.exponent
    have hinf : @unpackExponent Format.binary64 x.bits.toBitVec ≠ -1#_ := by
      intro heq
      have hnat : x.exponentField = 2047 := hexponent.symm.trans (congrArg BitVec.toNat heq)
      omega
    have hzero : @unpackExponent Format.binary64 x.bits.toBitVec ≠ 0#_ := by
      intro heq
      have hnat : x.exponentField = 0 := hexponent.symm.trans (congrArg BitVec.toNat heq)
      omega
    have himplicit : (1#1 ++ @unpackMantissa Format.binary64 x.bits.toBitVec).toNat =
        2 ^ 52 + x.fraction := by
      rw [BitVec.toNat_append, ← Nat.shiftLeft_add_eq_or_of_lt (BitVec.isLt _), hmantissa]
      rfl
    rw [if_neg hinf, if_neg hzero]
    refine hs.canonical _ himplicit ?_ ?_
    · have hbias : (Format.binary64.exponentBias : Int) = 1023 := rfl
      rw [hexponent, he, hbias]
      show ((c + 1023 : Nat) : Int) - (1023 + 52) = _
      omega
    · rw [apply_unpackSign]
      exact (toInt?_eq_some h.2).2.1.symm

theorem toNat_packComponents (s : Sign) (e : BitVec 11) (m : BitVec 52) :
    (packComponents Format.binary64 s e m).toNat =
      s.toBitVec.toNat * 2 ^ 63 + e.toNat * 2 ^ 52 + m.toNat := by
  unfold packComponents
  rw [BitVec.toNat_append, BitVec.toNat_append, ← Nat.shiftLeft_add_eq_or_of_lt e.isLt,
    ← Nat.shiftLeft_add_eq_or_of_lt m.isLt, Nat.shiftLeft_eq, Nat.shiftLeft_eq]
  show (s.toBitVec.toNat * 2 ^ 11 + e.toNat) * 2 ^ 52 + m.toNat = _
  ring

def isMinus : Sign → Bool
  | .negative => true
  | .positive => false

theorem apply_eq_signed (s : Sign) (k : Nat) : s.apply k = signed (isMinus s) k := by
  cases s <;> rfl

/-- The word of a sign, an exponent and a mantissa. -/
theorem packComponents_eq (s : Sign) {e : BitVec 11} {m : BitVec 52} :
    (⟨UInt64.ofBitVec (packComponents Format.binary64 s e m)⟩ : Binary64) =
      ofFields (isMinus s) e.toNat m.toNat := by
  have hsign : s.toBitVec.toNat = (isMinus s).toNat := by cases s <;> rfl
  have hbits : UInt64.ofBitVec (packComponents Format.binary64 s e m) =
      UInt64.ofNat ((isMinus s).toNat * 2 ^ 63 + e.toNat * 2 ^ 52 + m.toNat) := by
    apply UInt64.toNat_inj.1
    rw [← hsign, ← toNat_packComponents]
    exact (UInt64.toNat_ofNat_of_lt (packComponents Format.binary64 s e m).isLt).symm
  rw [hbits, ofFields]

theorem toInt?_of_fields_zero {x : Binary64} (he : x.exponentField = 0) (hf : x.fraction = 0) :
    x.toInt? = some 0 := by
  have hfinite : x.isFinite = true := by rw [isFinite, he]; rfl
  have hmantissa : x.mantissa = 0 := by rw [mantissa, if_pos he, hf]
  have hsigned : signed x.isNegative 0 = 0 := by cases x.isNegative <;> rfl
  have hexponent : ¬ 0 ≤ x.exponent := by
    rw [exponent, if_pos he]
    decide
  rw [toInt?_eq, hfinite, hmantissa, if_neg (by decide), if_neg hexponent, if_pos (Nat.zero_mod _),
    Nat.zero_div, hsigned]

/-- Packing the canonical form of an exact integer gives a word of it. -/
theorem Canonical.pack {u : UnpackedFloat} {n : Int} (h : Canonical u n) (hn : n.natAbs ≤ 2 ^ 53) :
    Holds ⟨(Float.Model.pack u).toBits⟩ n := by
  refine ⟨hn, ?_⟩
  cases h with
  | zero s =>
    have hpack : (⟨(Float.Model.pack (.zero s)).toBits⟩ : Binary64) = ofFields (isMinus s) 0 0 :=
      packComponents_eq s
    rw [hpack]
    exact toInt?_of_fields_zero (exponentField_ofFields (by decide) (by decide))
      (fraction_ofFields (by decide) (by decide))
  | @finite s m c k hm hs =>
    have hlow := hs.low
    have hhigh := hs.high
    have hc := hs.exponent
    have hexponent : ((c : Int) - 52 + Format.binary64.exponentBias +
        Format.binary64.mantissaBitsWithoutImplicit).toNat = c + 1023 := by
      have hbias : (Format.binary64.exponentBias : Int) = 1023 := rfl
      have hbits : (Format.binary64.mantissaBitsWithoutImplicit : Int) = 52 := rfl
      omega
    have hfields : (⟨(Float.Model.pack (.finite s m ((c : Int) - 52) hm)).toBits⟩ : Binary64) =
        ofFields (isMinus s) (c + 1023) (m - 2 ^ 52) := by
      have hpack : UnpackedFloat.pack Format.binary64 (.finite s m ((c : Int) - 52) hm) =
          packComponents Format.binary64 s (BitVec.ofNat 11 (c + 1023)) (BitVec.ofNat 52 m) := by
        unfold UnpackedFloat.pack
        simp only [hexponent, hs.log2]
        rw [if_neg (by show ¬ 2 ^ 11 ≤ c + 1023 + 1; omega)]
        rfl
      have he : (BitVec.ofNat 11 (c + 1023)).toNat = c + 1023 := by
        rw [BitVec.toNat_ofNat]
        omega
      have hm : (BitVec.ofNat 52 m).toNat = m - 2 ^ 52 := by
        rw [BitVec.toNat_ofNat]
        omega
      have hword := congrArg (fun b => (⟨UInt64.ofBitVec b⟩ : Binary64)) hpack
      rw [packComponents_eq, he, hm] at hword
      exact hword
    rw [hfields, apply_eq_signed]
    have he : c + 1023 < 2 ^ 11 := by omega
    have hf : m - 2 ^ 52 < 2 ^ 52 := by omega
    rw [hs.toInt? (exponentField_ofFields he hf) (fraction_ofFields he hf),
      isNegative_ofFields he hf]

theorem log2_mul_two_pow {m : Nat} (hm : m ≠ 0) (j : Nat) : (m * 2 ^ j).log2 = m.log2 + j := by
  have hne : m * 2 ^ j ≠ 0 := Nat.mul_ne_zero hm (Nat.two_pow_pos j).ne'
  rw [Nat.log2_eq_iff hne, Nat.pow_add, show m.log2 + j + 1 = m.log2 + 1 + j by omega, Nat.pow_add]
  exact ⟨Nat.mul_le_mul_right _ (Nat.log2_self_le hm),
    Nat.mul_lt_mul_of_pos_right Nat.lt_log2_self (Nat.two_pow_pos j)⟩

theorem shiftRight_exact (m n : Nat) :
    (⟨m * 2 ^ n, false, false⟩ : ExtendedMantissa) >>> n = ⟨m, false, false⟩ := by
  show n.repeat ExtendedMantissa.shiftRightOne _ = _
  induction n generalizing m with
  | zero => simp [Nat.repeat]
  | succ n ih =>
    have hsplit : m * 2 ^ (n + 1) = m * 2 * 2 ^ n := by rw [Nat.pow_succ]; ring
    rw [Nat.repeat, hsplit, ih]
    simp [ExtendedMantissa.shiftRightOne]

theorem targetExponent_eq {t : Int} (ht : -1074 ≤ t) :
    Format.binary64.targetExponent (53 + t) = t := by
  have hbits : (Format.binary64.mantissaBits : Int) = 53 := rfl
  have hmin : Format.binary64.minExponent = -1074 := rfl
  rw [Format.targetExponent, hbits, hmin]
  omega

/-- A mantissa that is too long by zero digits is shifted to 53 digits. -/
theorem roundWithAccuracy_exact (s : Sign) {m j : Nat} {e : Int} (hm : m.log2 = 52)
    (hpos : 0 < m) (he : -1074 ≤ e + j) :
    roundWithAccuracy Format.binary64 s (m * 2 ^ j) e .exact = .finite s m (e + j) hpos := by
  have hlog : (m * 2 ^ j).log2 = 52 + j := by rw [log2_mul_two_pow (by omega), hm]
  have htotal : totalExponent (m * 2 ^ j) e = 53 + (e + j) := by
    rw [totalExponent, hlog]
    push_cast
    ring
  have hagain : totalExponent m (e + j) = 53 + (e + j) := by
    rw [totalExponent, hm]
    push_cast
    ring
  have hfirst : shiftToTargetExponent Format.binary64 (m * 2 ^ j) e .exact =
      (⟨m, false, false⟩, e + j) := by
    have hshift : (e + j - e).toNat = j := by omega
    rw [shiftToTargetExponent, htotal, targetExponent_eq he, shiftToExponent, hshift]
    exact congrArg (·, e + j) (shiftRight_exact m j)
  have hsecond : shiftToTargetExponent Format.binary64 m (e + j) .exact =
      (⟨m, false, false⟩, e + j) := by
    have hshift : (e + j - (e + j)).toNat = 0 := by omega
    rw [shiftToTargetExponent, hagain, targetExponent_eq he, shiftToExponent, hshift]
    show ((⟨m, false, false⟩ : ExtendedMantissa), e + j + (0 : Nat)) = _
    rw [Nat.cast_zero, Int.add_zero]
  have hrounded : (⟨m, false, false⟩ : ExtendedMantissa).roundedMantissa = m := rfl
  unfold roundWithAccuracy
  rw [hfirst]
  dsimp only
  rw [hrounded, hsecond]
  exact dif_neg hpos.ne'

/-- Rounding an exact integer leaves it in canonical form. -/
theorem canonical_round {m c k : Nat} (hk : 0 < k) (hbound : k ≤ 2 ^ 53) (hc : c ≤ 53)
    (h : m * 2 ^ c = k * 2 ^ 52) (s : Sign) :
    Canonical (UnpackedFloat.round Format.binary64 s m ((c : Int) - 52)) (s.apply k) := by
  obtain ⟨m', c', hs⟩ := exists_scaled hk hbound
  have hlog := hs.log2
  have hpos := hs.pos
  have hc' := hs.exponent
  have hvalue : m * 2 ^ c = m' * 2 ^ c' := h.trans hs.value.symm
  by_cases hle : c ≤ c'
  · obtain ⟨j, rfl⟩ := Nat.exists_eq_add_of_le hle
    have hm : m = m' * 2 ^ j := by
      rw [Nat.pow_add, Nat.mul_comm (2 ^ c), ← Nat.mul_assoc] at hvalue
      exact Nat.eq_of_mul_eq_mul_right (Nat.two_pow_pos c) hvalue
    have htotal : totalExponent m ((c : Int) - 52) = 53 + ((c : Int) - 52 + j) := by
      rw [totalExponent, hm, log2_mul_two_pow (by omega), hlog]
      push_cast
      ring
    have hshift : ((c : Int) - 52 - ((c : Int) - 52 + j)).toNat = 0 := by omega
    have hround : UnpackedFloat.round Format.binary64 s m ((c : Int) - 52) =
        .finite s m' ((c : Int) - 52 + j) hpos := by
      rw [UnpackedFloat.round, htotal, targetExponent_eq (by omega), decreaseExponent, hshift]
      rw [Nat.shiftLeft_zero, Nat.cast_zero, Int.sub_zero, hm]
      exact roundWithAccuracy_exact s hlog hpos (by omega)
    rw [hround]
    exact hs.canonical hpos rfl (by push_cast; ring) rfl
  · obtain ⟨j, rfl⟩ := Nat.exists_eq_add_of_le (Nat.le_of_not_le hle)
    have hm : m' = m * 2 ^ j := by
      rw [Nat.pow_add, Nat.mul_comm (2 ^ c'), ← Nat.mul_assoc] at hvalue
      exact (Nat.eq_of_mul_eq_mul_right (Nat.two_pow_pos c') hvalue).symm
    have hmne : m ≠ 0 := by
      rintro rfl
      omega
    have htotal : totalExponent m (((c' + j : Nat) : Int) - 52) = 53 + ((c' : Int) - 52) := by
      have hlog' : m.log2 + j = 52 := by rw [← log2_mul_two_pow hmne, ← hm, hlog]
      rw [totalExponent]
      push_cast
      omega
    have hshift : (((c' + j : Nat) : Int) - 52 - ((c' : Int) - 52)).toNat = j := by omega
    have hround : UnpackedFloat.round Format.binary64 s m (((c' + j : Nat) : Int) - 52) =
        .finite s m' ((c' : Int) - 52) hpos := by
      rw [UnpackedFloat.round, htotal, targetExponent_eq (by omega), decreaseExponent, hshift]
      rw [Nat.shiftLeft_eq, ← hm]
      have hexact := roundWithAccuracy_exact s (j := 0) (e := (c' : Int) - 52) hlog hpos (by omega)
      have hexponent : ((c' + j : Nat) : Int) - 52 - j = (c' : Int) - 52 := by omega
      rw [Nat.pow_zero, Nat.mul_one, Nat.cast_zero, Int.add_zero] at hexact
      rw [hexponent]
      exact hexact
    rw [hround]
    exact hs.canonical hpos rfl rfl rfl

end GridKernel.Binary64
