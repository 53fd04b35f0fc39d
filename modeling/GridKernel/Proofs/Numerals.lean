import GridKernel.Json.Printer
import GridKernel.Json.Reader
import GridKernel.Proofs.Binary64Fields
import Mathlib.Data.List.Basic

/-!
Numbers as texts. A numeral is well formed when the grammar of numbers has texts for it; each of
these reads back as the numeral in front of anything that cannot extend a number. The numerals of
integers and of words are well formed, and the numeral of an integer denotes it.
-/
namespace GridKernel.Json

/-- A text that a number stands in front of without being extended by it. -/
def Delimited (cs : List Char) : Prop :=
  ∀ c ∈ cs.head?, c.isDigit = false ∧ c ≠ '.' ∧ c ≠ 'e' ∧ c ≠ 'E'

theorem delimited_nil : Delimited [] := by
  intro c hc
  cases hc

theorem delimited_cons {c : Char} {cs : List Char}
    (hc : c.isDigit = false ∧ c ≠ '.' ∧ c ≠ 'e' ∧ c ≠ 'E') : Delimited (c :: cs) := by
  intro d hd
  cases hd
  exact hc

/-- The longest front of a text with a property, when the property ends there. -/
theorem takeWhile_append_of_stop {p : Char → Bool} {cs rest : List Char} (hcs : ∀ c ∈ cs, p c)
    (hrest : ∀ c ∈ rest.head?, p c = false) : (cs ++ rest).takeWhile p = cs := by
  rw [List.takeWhile_append_of_pos hcs]
  cases rest with
  | nil => simp
  | cons c rest => simp [hrest c rfl]

/-- Digits followed by something else are split off. -/
theorem spanDigits_append {ds rest : List Char} (hds : ∀ c ∈ ds, c.isDigit)
    (hrest : ∀ c ∈ rest.head?, c.isDigit = false) : spanDigits (ds ++ rest) = (ds, rest) := by
  have hdrop : rest.dropWhile Char.isDigit = rest := by
    cases rest with
    | nil => rfl
    | cons c rest => simp [hrest c rfl]
  rw [spanDigits, takeWhile_append_of_stop hds hrest, List.dropWhile_append_of_pos hds, hdrop]

namespace Numeral

/-- The digits after a point, with the point. -/
def fractionText (fraction : List Char) : List Char :=
  if fraction.isEmpty then [] else '.' :: fraction

/-- The texts of an exponent: none, or a letter and digits with or without a sign between them. -/
inductive ExponentText : List Char → Option (Bool × List Char) → Prop where
  | none : ExponentText [] none
  | unsigned {c : Char} {digits : List Char} (hc : c = 'e' ∨ c = 'E') :
      ExponentText (c :: digits) (some (false, digits))
  | signed {c : Char} {digits : List Char} (hc : c = 'e' ∨ c = 'E') (negative : Bool) :
      ExponentText (c :: (if negative then '-' else '+') :: digits) (some (negative, digits))

/-- The digits before a point: a zero alone, or digits that begin with another one. -/
def Whole (cs : List Char) : Prop :=
  cs = ['0'] ∨ cs ≠ [] ∧ '0' ∉ cs.head? ∧ ∀ c ∈ cs, c.isDigit

/-- The grammar of numbers, with digits after a point and digits of an exponent where there are
any. -/
structure WellFormed (n : Numeral) : Prop where
  whole : Whole n.whole
  fraction : ∀ c ∈ n.fraction, c.isDigit
  exponent : ∀ e ∈ n.exponent?, e.2 ≠ [] ∧ ∀ c ∈ e.2, c.isDigit

/-- The texts of a number. -/
structure HasText (n : Numeral) (cs : List Char) : Prop where
  wellFormed : n.WellFormed
  text : ∃ exponent, ExponentText exponent n.exponent? ∧
    cs = (if n.negative then ['-'] else []) ++ (n.whole ++ (fractionText n.fraction ++ exponent))

/-- The printed text of a number is one of its texts. -/
theorem WellFormed.hasText {n : Numeral} (h : n.WellFormed) : n.HasText n.text.toList := by
  refine ⟨h, ?_⟩
  obtain ⟨negative, whole, fraction, exponent?⟩ := n
  have hsign : (if negative then "-" else "").toList = if negative then ['-'] else [] := by
    cases negative <;> rfl
  rcases exponent? with _ | ⟨_ | _, digits⟩
  · exact ⟨[], .none, by cases fraction <;> simp [Numeral.text, fractionText, hsign]⟩
  · exact ⟨'e' :: digits, .unsigned (.inl rfl),
      by cases fraction <;> simp [Numeral.text, fractionText, hsign]⟩
  · exact ⟨'e' :: '-' :: digits, .signed (.inl rfl) true,
      by cases fraction <;> simp [Numeral.text, fractionText, hsign]⟩

theorem WellFormed.exists_digit {n : Numeral} (h : n.WellFormed) :
    ∃ c cs, n.whole = c :: cs ∧ c.isDigit := by
  obtain hzero | ⟨hne, -, hdigits⟩ := h.whole
  · exact ⟨'0', [], hzero, rfl⟩
  · obtain ⟨c, cs, hwhole⟩ := List.exists_cons_of_ne_nil hne
    exact ⟨c, cs, hwhole, hdigits c (hwhole ▸ List.mem_cons_self)⟩

end Numeral

open Numeral

theorem readWhole_append {n : Numeral} (h : n.WellFormed) {rest : List Char}
    (hrest : ∀ c ∈ rest.head?, c.isDigit = false) :
    readWhole (n.whole ++ rest) = some (n.whole, rest) := by
  obtain hzero | ⟨hne, hhead, hdigits⟩ := h.whole
  · rw [hzero]
    rfl
  · obtain ⟨c, cs, hwhole⟩ := List.exists_cons_of_ne_nil hne
    have hc : c ≠ '0' := by
      intro hc
      rw [hwhole, hc] at hhead
      exact hhead rfl
    have hspan := spanDigits_append hdigits hrest
    rw [hwhole] at hspan ⊢
    unfold readWhole
    split
    · rename_i heq
      exact absurd (List.cons.inj heq).1 hc
    · rw [hspan]

theorem readFraction_append {fraction rest : List Char} (h : ∀ c ∈ fraction, c.isDigit)
    (hrest : ∀ c ∈ rest.head?, c.isDigit = false ∧ c ≠ '.') :
    readFraction (fractionText fraction ++ rest) = some (fraction, rest) := by
  cases fraction with
  | nil =>
    show readFraction rest = some ([], rest)
    unfold readFraction
    split
    · exact absurd rfl (hrest '.' rfl).2
    · rfl
  | cons d ds =>
    have hspan := spanDigits_append h fun c hc => (hrest c hc).1
    show readFraction ('.' :: (d :: ds ++ rest)) = some (d :: ds, rest)
    simp only [readFraction, hspan]

theorem readPower_append (negative : Bool) {digits rest : List Char} (hne : digits ≠ [])
    (h : ∀ c ∈ digits, c.isDigit) (hrest : ∀ c ∈ rest.head?, c.isDigit = false) :
    readPower negative (digits ++ rest) = some (some (negative, digits), rest) := by
  obtain ⟨d, ds, rfl⟩ := List.exists_cons_of_ne_nil hne
  simp only [readPower, spanDigits_append h hrest]

theorem readExponent_append {exponent? : Option (Bool × List Char)} {exponent rest : List Char}
    (htext : ExponentText exponent exponent?)
    (h : ∀ e ∈ exponent?, e.2 ≠ [] ∧ ∀ c ∈ e.2, c.isDigit) (hrest : Delimited rest) :
    readExponent (exponent ++ rest) = some (exponent?, rest) := by
  cases htext with
  | none =>
    cases rest with
    | nil => rfl
    | cons c cs =>
      obtain ⟨-, -, he, hE⟩ := hrest c rfl
      simp [readExponent, he, hE]
  | @unsigned c digits hc =>
    obtain ⟨hne, hdigits⟩ := h _ rfl
    have hpower := readPower_append false hne hdigits fun c hc => (hrest c hc).1
    -- An exponent's first digit is no sign.
    obtain ⟨d, ds, rfl⟩ := List.exists_cons_of_ne_nil hne
    have hd : d.isDigit := hdigits d List.mem_cons_self
    have hletter : (c == 'e' || c == 'E') = true := by simpa using hc
    show readExponent (c :: d :: (ds ++ rest)) = _
    simp only [readExponent, hletter, if_true]
    split
    · rename_i heq
      rw [(List.cons.inj heq).1] at hd
      cases hd
    · rename_i heq
      rw [(List.cons.inj heq).1] at hd
      cases hd
    · exact hpower
  | @signed c digits hc negative =>
    obtain ⟨hne, hdigits⟩ := h _ rfl
    have hpower := readPower_append negative hne hdigits fun c hc => (hrest c hc).1
    have hletter : (c == 'e' || c == 'E') = true := by simpa using hc
    cases negative <;> simpa [readExponent, hletter] using hpower

/-- What follows the whole digits of a number is no digit, and after the fraction no point. -/
theorem head_exponentText {exponent? : Option (Bool × List Char)} {exponent rest : List Char}
    (htext : ExponentText exponent exponent?) (hrest : Delimited rest) :
    ∀ c ∈ (exponent ++ rest).head?, c.isDigit = false ∧ c ≠ '.' := by
  intro c hc
  cases htext with
  | none => exact ⟨(hrest c hc).1, (hrest c hc).2.1⟩
  | unsigned hletter =>
    cases hc
    rcases hletter with rfl | rfl <;> decide
  | signed hletter =>
    cases hc
    rcases hletter with rfl | rfl <;> decide

theorem head_fractionText (fraction : List Char) {rest : List Char}
    (hrest : ∀ c ∈ rest.head?, c.isDigit = false) :
    ∀ c ∈ (fractionText fraction ++ rest).head?, c.isDigit = false := by
  intro c hc
  cases fraction with
  | nil => exact hrest c hc
  | cons d ds => cases hc; decide

theorem readUnsigned_append {n : Numeral} (h : n.WellFormed) {exponent rest : List Char}
    (htext : ExponentText exponent n.exponent?) (hrest : Delimited rest) :
    readUnsigned n.negative (n.whole ++ (fractionText n.fraction ++ (exponent ++ rest))) =
      some (number n, rest) := by
  have hafter := head_exponentText htext hrest
  have hpoint := head_fractionText n.fraction fun c hc => (hafter c hc).1
  simp [readUnsigned, readWhole_append h hpoint, readFraction_append h.fraction hafter,
    readExponent_append htext h.exponent hrest]

/-- Every text of a number reads back in front of anything that cannot extend it. -/
theorem readNumber_append {n : Numeral} {cs rest : List Char} (h : n.HasText cs)
    (hrest : Delimited rest) : readNumber (cs ++ rest) = some (number n, rest) := by
  obtain ⟨exponent, htext, rfl⟩ := h.text
  have hread := readUnsigned_append h.wellFormed htext hrest
  simp only [List.append_assoc]
  cases hn : n.negative with
  | true =>
    rw [hn] at hread
    exact hread
  | false =>
    -- Without a sign the text begins with a digit.
    obtain ⟨c, cs, hwhole, hc⟩ := h.wellFormed.exists_digit
    rw [hn, hwhole] at hread
    rw [hwhole]
    show readNumber (c :: _) = _
    unfold readNumber
    split
    · rename_i heq
      rw [(List.cons.inj heq).1] at hc
      cases hc
    · exact hread

/-! The numerals that are written. -/

namespace Numeral

theorem isDigit_toDigits {n : Nat} : ∀ c ∈ Nat.toDigits 10 n, c.isDigit := by
  intro c hc
  exact Nat.isDigit_of_mem_toDigits (by decide) (by decide) hc

theorem head_toDigits {n : Nat} (hn : n ≠ 0) : '0' ∉ (Nat.toDigits 10 n).head? := by
  induction n using Nat.strongRecOn with
  | ind n ih =>
    by_cases hlt : n < 10
    · simp [Nat.toDigits_of_lt_base hlt, hn]
    · rw [Nat.toDigits_of_base_le (by decide) (by omega),
        List.head?_append_of_ne_nil _ Nat.toDigits_ne_nil]
      exact ih (n / 10) (by omega) (by omega)

theorem whole_toDigits (n : Nat) : Whole (Nat.toDigits 10 n) := by
  by_cases hn : n = 0
  · exact .inl (hn ▸ rfl)
  · exact .inr ⟨Nat.toDigits_ne_nil, head_toDigits hn, isDigit_toDigits⟩

/-- Digits may follow those of a positive number. -/
theorem whole_append {n : Nat} (hn : n ≠ 0) {ds : List Char} (hds : ∀ c ∈ ds, c.isDigit) :
    Whole (Nat.toDigits 10 n ++ ds) := by
  have hhead := head_toDigits hn
  right
  constructor
  · simp
  constructor
  · rwa [List.head?_append_of_ne_nil _ Nat.toDigits_ne_nil]
  · intro c hc
    exact (List.mem_append.1 hc).elim (isDigit_toDigits c) (hds c)

theorem Whole.take {cs : List Char} (h : Whole cs) {k : Nat} (hk : 0 < k) : Whole (cs.take k) := by
  obtain ⟨k, rfl⟩ := Nat.exists_eq_succ_of_ne_zero (Nat.ne_of_gt hk)
  obtain rfl | ⟨hne, hhead, hdigits⟩ := h
  · exact .inl (by simp)
  · obtain ⟨c, cs, rfl⟩ := List.exists_cons_of_ne_nil hne
    right
    constructor
    · simp
    constructor
    · exact hhead
    · exact fun d hd => hdigits d (List.mem_of_mem_take hd)

theorem wellFormed_ofNat (n : Nat) : (ofNat n).WellFormed where
  whole := whole_toDigits n
  fraction := by simp [ofNat]
  exponent := by simp [ofNat]

theorem wellFormed_ofInt (n : Int) : (ofInt n).WellFormed where
  whole := whole_toDigits n.natAbs
  fraction := by simp [ofInt]
  exponent := by simp [ofInt]

/-- A decimal is well written unless zeros would follow a zero. -/
theorem wellFormed_ofDecimal (negative : Bool) {d : Binary64.Decimal}
    (hd : d.digits ≠ 0 ∨ d.power = 0) : (Numeral.ofDecimal negative d).WellFormed := by
  have hzeros : ∀ n, ∀ c ∈ List.replicate n '0', c.isDigit := by
    intro n c hc
    rw [List.eq_of_mem_replicate hc]
    rfl
  unfold Numeral.ofDecimal
  dsimp only
  split
  · refine ⟨?_, by simp, by simp⟩
    obtain hdigits | hpower := hd
    · exact whole_append hdigits (hzeros _)
    · simpa [hpower] using whole_toDigits d.digits
  split
  · exact ⟨(whole_toDigits _).take (by omega),
      fun c hc => isDigit_toDigits c (List.mem_of_mem_drop hc), by simp⟩
  split
  · refine ⟨.inl rfl, ?_, by simp⟩
    intro c hc
    exact (List.mem_append.1 hc).elim (hzeros _ c) (isDigit_toDigits c)
  · refine ⟨(whole_toDigits _).take (by decide),
      fun c hc => isDigit_toDigits c (List.mem_of_mem_drop hc), ?_⟩
    rintro e ⟨⟩
    exact ⟨Nat.toDigits_ne_nil, isDigit_toDigits⟩

theorem value_toDigits (n : Nat) : value (Nat.toDigits 10 n) = n := by
  have hfold : Nat.ofDigitChars 10 (Nat.toDigits 10 n) 0 = value (Nat.toDigits 10 n) :=
    Nat.ofDigitChars_eq_foldl
  rw [← hfold, Nat.ofDigitChars_ten_toDigits]

theorem int?_ofInt (n : Int) : (ofInt n).int? = some n := by
  show (if decide (n < 0) then
      if value (Nat.toDigits 10 n.natAbs) = 0 then none
      else some (-(value (Nat.toDigits 10 n.natAbs) : Int))
    else some (value (Nat.toDigits 10 n.natAbs) : Int)) = some n
  rw [value_toDigits]
  by_cases hn : n < 0
  · have hne : n.natAbs ≠ 0 := by omega
    rw [if_pos (decide_eq_true hn), if_neg hne]
    congr 1
    omega
  · rw [if_neg (by simpa using hn)]
    congr 1
    omega

end Numeral

end GridKernel.Json

namespace GridKernel.Binary64

theorem mantissa_pos {x : Binary64} (h : x.isZero = false) : 0 < x.mantissa := by
  have hbits : x.bits.toNat % 2 ^ 63 ≠ 0 := by
    intro hzero
    rw [← toNat_abs] at hzero
    have : x.abs.bits = 0 := UInt64.toNat_inj.1 hzero
    simp [isZero, this] at h
  unfold mantissa
  rw [exponentField_eq, fraction_eq]
  split <;> omega

theorem low_pos {x : Binary64} (h : x.isZero = false) : 0 < x.roundingInterval.low := by
  have hmantissa := mantissa_pos h
  unfold roundingInterval
  dsimp only
  apply Nat.mul_pos
  · split <;> omega
  · split
    · exact Nat.two_pow_pos _
    · exact Nat.one_pos

namespace RoundingInterval

theorem ne_zero_of_holds {i : RoundingInterval} (hlow : 0 < i.low) {num unit : Nat}
    (hunit : 0 < unit) (h : i.holds num unit) : num ≠ 0 := by
  rintro rfl
  have hpos : 0 < i.low * unit := Nat.mul_pos hlow hunit
  unfold holds at h
  dsimp only at h
  split at h
  · simp at h
    omega
  · simp at h

/-- What a grid gives lies in the interval. -/
theorem holds_of_onGrid? {i : RoundingInterval} {power : Int} {n : Nat}
    (h : i.onGrid? power = some n) : i.holds (n * if 0 ≤ power then 10 ^ power.toNat else 1)
      (if 0 ≤ power then 1 else 10 ^ (-power).toNat) := by
  unfold onGrid? at h
  dsimp only at h
  split at h
  · rename_i hlower hupper
    rw [← Option.some.inj h]
    exact iteInduction
      (motive := fun k => i.holds (k * if 0 ≤ power then 10 ^ power.toNat else 1) _ = true)
      (fun _ => hlower) (fun _ => hupper)
  · rename_i hlower _
    rw [← Option.some.inj h]
    exact hlower
  · rename_i hupper
    rw [← Option.some.inj h]
    exact hupper
  · cases h

theorem grid_unit_pos (power : Int) : 0 < if 0 ≤ power then 1 else 10 ^ (-power).toNat := by
  split
  · exact Nat.one_pos
  · exact Nat.pow_pos (by decide)

theorem ne_zero_of_onGrid? {i : RoundingInterval} (hlow : 0 < i.low) {power : Int} {n : Nat}
    (h : i.onGrid? power = some n) : n ≠ 0 := by
  rintro rfl
  exact ne_zero_of_holds hlow (grid_unit_pos power) (holds_of_onGrid? h) (Nat.zero_mul _)

/-- The first hit is one of the hits. -/
theorem onGrid?_of_firstHit {i : RoundingInterval} {grids : List Int} {d : Decimal}
    (h : i.firstHit grids = some d) : i.onGrid? d.power = some d.digits := by
  induction grids with
  | nil => cases h
  | cons p ps ih =>
    unfold firstHit at h
    split at h
    · rename_i hn
      rw [← Option.some.inj h]
      exact hn
    · exact ih h

end RoundingInterval

theorem Decimal.digits_trim {d : Decimal} (h : d.digits ≠ 0) (fuel : Nat) :
    (d.trim fuel).digits ≠ 0 := by
  induction fuel generalizing d with
  | zero => exact h
  | succ fuel ih =>
    unfold trim
    split
    · apply ih
      dsimp only
      omega
    · exact h

/-- The decimal of a word other than zero has a digit other than zero, if one is found. -/
theorem shortest_eq_zero_or {x : Binary64} (h : x.isZero = false) :
    x.shortest.digits ≠ 0 ∨ x.shortest.power = 0 := by
  unfold shortest
  dsimp only
  split
  · rename_i hd
    exact .inl (Decimal.digits_trim
      (RoundingInterval.ne_zero_of_onGrid? (low_pos h) (RoundingInterval.onGrid?_of_firstHit hd)) 400)
  · exact .inr rfl

end GridKernel.Binary64

namespace GridKernel.Json.Numeral

theorem wellFormed_ofBinary64 (x : Binary64) : (ofBinary64 x).WellFormed := by
  unfold ofBinary64
  split
  · constructor
    · exact .inl rfl
    · simp
    · simp
  · rename_i hzero
    exact wellFormed_ofDecimal _ (Binary64.shortest_eq_zero_or (Bool.eq_false_iff.2 hzero))

end GridKernel.Json.Numeral
