import GridKernel.Proofs.HaloWidths
import GridKernel.Proofs.Marches
import GridKernel.Proofs.Overflows

/-! Grids at the end of the words. The check of the border is exact on all words but for the
doubling of a border from 2^63 on, which stops the set-up of the march. The bounds of its loops are
signed words: an upper end from 2^63 on is read as a negative one, and a march of as many steps
takes none. -/
namespace GridKernel

/-- The integers that bounds of two literals stand for. -/
def Bounds.ends? (b : Bounds) : Option (Int × Int) := do
  return ((← b.lower.int?).toInt, (← b.upper.int?).toInt)

/-- The number of trips between bounds of two literals. -/
def Bounds.trips? (b : Bounds) : Option Nat :=
  b.ends?.map fun (lower, upper) => tripCount lower upper b.step.toInt

namespace March

variable {specs : Specs} {m : March} {border : UInt64}

/-- The border fits every axis twice, in the natural numbers. -/
def Specs.BorderFits (specs : Specs) : Prop :=
  ∀ extent ∈ specs.shape, 2 * specs.border.toNat ≤ extent.toNat

theorem tooSmall?_overflows (h : 2 ^ 63 ≤ border.toNat) {shape : List UInt64} (hne : shape ≠ []) :
    tooSmall? border shape = .error .overflow := by
  cases shape with
  | nil => exact absurd rfl hne
  | cons extent rest =>
    have htwo : (2 : UInt64).toNat = 2 := rfl
    have hdouble : Word.mulSize 2 border = .error .overflow := by
      rw [Word.mulSize, Word.size_overflows, htwo]
      omega
    rw [tooSmall?, hdouble, error_bind]

/-- A border that can be doubled is compared with every extent exactly. -/
theorem tooSmall?_eq (h : border.toNat < 2 ^ 63) (shape : List UInt64) :
    tooSmall? border shape =
      .ok (shape.find? fun extent => extent.toNat < 2 * border.toNat) := by
  obtain ⟨double, hdouble, hvalue⟩ :
      ∃ w, Word.mulSize 2 border = .ok w ∧ w.toNat = 2 * border.toNat :=
    Word.exists_size (n := 2 * border.toNat) (by omega)
  induction shape with
  | nil => rfl
  | cons extent rest ih =>
    have hlt : extent < double ↔ extent.toNat < 2 * border.toNat := by
      rw [UInt64.lt_iff_toNat_lt, hvalue]
    rw [tooSmall?, hdouble, ok_bind, List.find?_cons]
    by_cases hsmall : extent.toNat < 2 * border.toNat
    · simp [hlt, hsmall]
    · simpa [hlt, hsmall] using ih

/-- A grid of one to three axes under a valid name is set up unless its border is refused. -/
theorem exists_ofSpecs_eq (hname : Identifier.isValid specs.name)
    (hrank : 0 < specs.shape.length ∧ specs.shape.length ≤ maxRank) :
    ∃ m, ofSpecs specs = do
      match ← tooSmall? specs.border specs.shape with
      | some extent => refuse (.borderTooWide specs.border.toNat extent.toNat)
      | none => return m := by
  have hcases : specs.shape.length = 1 ∨ specs.shape.length = 2 ∨ specs.shape.length = 3 := by
    have hthree : maxRank = 3 := rfl
    omega
  have hadmitted : ¬ (specs.shape.length = 0 ∨ maxRank < specs.shape.length) := by omega
  obtain ⟨dims, hdims⟩ :
      ∃ ds, (axisNames.take specs.shape.length).mapM Dimension.spatial = .ok ds := by
    rcases hcases with h | h | h <;> rw [h] <;> exact ⟨_, rfl⟩
  obtain ⟨counters, hcounters⟩ :
      ∃ ds, (List.range specs.shape.length).mapM (fun k => Dimension.spatial s!"i{k + 1}") =
        .ok ds := by
    rcases hcases with h | h | h <;> rw [h] <;> exact ⟨_, rfl⟩
  obtain ⟨timeCounter, htimeCounter⟩ :
      ∃ d, Dimension.time s!"i{specs.shape.length + 1}" = .ok d := by
    rcases hcases with h | h | h <;> rw [h] <;> exact ⟨_, rfl⟩
  have htime : Dimension.time "t" = .ok ⟨"t", .time⟩ := rfl
  unfold ofSpecs
  simp only [if_neg hadmitted, Identifier.check_eq_ok hname, htime, hdims, hcounters, htimeCounter,
    ok_bind]
  exact ⟨_, rfl⟩

/-- The set-up stops where a border cannot be doubled, or at the first extent that is less than
twice the border. -/
theorem ofSpecs_eq_error (hname : Identifier.isValid specs.name)
    (hrank : 0 < specs.shape.length ∧ specs.shape.length ≤ maxRank) {fault : Fault} :
    ofSpecs specs = .error fault ↔
      2 ^ 63 ≤ specs.border.toNat ∧ fault = .overflow ∨
        specs.border.toNat < 2 ^ 63 ∧ ∃ before extent after,
          specs.shape = before ++ extent :: after ∧
            (∀ e ∈ before, 2 * specs.border.toNat ≤ e.toNat) ∧
            extent.toNat < 2 * specs.border.toNat ∧
            fault = .cause (.borderTooWide specs.border.toNat extent.toNat) := by
  obtain ⟨m, hm⟩ := exists_ofSpecs_eq hname hrank
  rw [hm]
  rcases Nat.lt_or_ge specs.border.toNat (2 ^ 63) with hborder | hborder
  · rw [tooSmall?_eq hborder, ok_bind]
    have hword : ¬ 2 ^ 63 ≤ specs.border.toNat := by omega
    simp only [hborder, hword, true_and, false_and, false_or]
    cases hfind : specs.shape.find? fun extent => extent.toNat < 2 * specs.border.toNat with
    | none =>
      have hfits := List.find?_eq_none.1 hfind
      simp only [pure_eq_ok, reduceCtorEq, false_iff]
      rintro ⟨before, extent, after, hshape, -, hsmall, -⟩
      exact hfits extent (by simp [hshape]) (by simpa using hsmall)
    | some extent =>
      obtain ⟨hsmall, before, after, hshape, hbefore⟩ := List.find?_eq_some_iff_append.1 hfind
      constructor
      · intro h
        exact ⟨before, extent, after, hshape, fun e he => by simpa using hbefore e he,
          by simpa using hsmall, (Except.error.inj h).symm⟩
      · rintro ⟨before', extent', after', hshape', hbefore', hsmall', rfl⟩
        have hfirst : specs.shape.find? (fun extent => extent.toNat < 2 * specs.border.toNat) =
            some extent' :=
          List.find?_eq_some_iff_append.2 ⟨by simpa using hsmall', before', after', hshape',
            fun e he => by simpa using hbefore' e he⟩
        rw [hfind] at hfirst
        obtain rfl := Option.some.inj hfirst
        rfl
  · have hne : specs.shape ≠ [] := List.ne_nil_of_length_pos hrank.1
    have hword : ¬ specs.border.toNat < 2 ^ 63 := by omega
    rw [tooSmall?_overflows hborder hne, error_bind]
    simp only [hborder, hword, true_and, false_and, or_false]
    exact ⟨fun h => (Except.error.inj h).symm, fun h => h ▸ rfl⟩

/-- A grid is set up exactly when its border fits twice. -/
theorem ofSpecs_accepts_iff (hname : Identifier.isValid specs.name)
    (hrank : 0 < specs.shape.length ∧ specs.shape.length ≤ maxRank) :
    (∃ m, ofSpecs specs = .ok m) ↔ specs.BorderFits := by
  constructor
  · rintro ⟨m, hm⟩
    exact (ofSpecs_eq_ok hm).1.border
  · intro hfits
    cases hspecs : ofSpecs specs with
    | ok m => exact ⟨m, rfl⟩
    | error fault =>
      rcases (ofSpecs_eq_error hname hrank).1 hspecs with
        ⟨hborder, -⟩ | ⟨-, before, extent, after, hshape, -, hsmall, -⟩
      · obtain ⟨extent, hextent⟩ := List.exists_mem_of_length_pos hrank.1
        have hdouble := hfits extent hextent
        have hword := extent.toNat_lt
        omega
      · have hdouble := hfits extent (by simp [hshape])
        omega

/-- The lower end of the space loops is exact; the upper one is a signed word. -/
theorem ends?_spaceBounds (hm : Configured specs m) :
    List.Forall₂ (fun (b : Bounds) (extent : UInt64) =>
      b.step = 1 ∧ b.ends? = some ((specs.border.toNat : Int),
        if extent.toNat - specs.border.toNat < 2 ^ 63 then
          (extent.toNat : Int) - specs.border.toNat
        else (extent.toNat : Int) - specs.border.toNat - 2 ^ 64))
      m.spaceBounds specs.shape.reverse := by
  rw [hm.spaceBounds, gridBounds, List.forall₂_map_left_iff]
  refine List.forall₂_same.2 fun extent hextent => ⟨rfl, ?_⟩
  have hborder := hm.border extent (List.mem_reverse.1 hextent)
  have hword := extent.toNat_lt
  have hlower : specs.border.toInt64.toInt = specs.border.toNat := Word.toInt_of_lt (by omega)
  have hsub : (extent - specs.border).toNat = extent.toNat - specs.border.toNat :=
    UInt64.toNat_sub_of_le _ _ (UInt64.le_iff_toNat_le.2 (by omega))
  have hupper := Word.toInt_toInt64 (extent - specs.border)
  have hends : (⟨.ofSize specs.border, .ofSize (extent - specs.border), 1⟩ : Bounds).ends? =
      some (specs.border.toInt64.toInt, (extent - specs.border).toInt64.toInt) := rfl
  rw [hends, hlower, hupper, hsub]
  congr 2
  split <;> omega

/-- The time loop of a march without rings makes as many trips as the march has steps, up to the
range of signed words. Past it a loop makes no trip; at its end the first time of a backward march
overflows. -/
theorem trips?_timeBounds (hring : m.hasRing = false) :
    (m.timeBounds = .error .overflow ↔ m.forward = false ∧ m.steps.toNat = 2 ^ 63) ∧
      ∀ b, m.timeBounds = .ok b →
        b.trips? = some (if m.steps.toNat < 2 ^ 63 then m.steps.toNat else 0) := by
  have hsteps := Word.toInt_toInt64 m.steps
  have hword := m.steps.toNat_lt
  have hone : (1 : Int64).toInt = 1 := rfl
  unfold timeBounds
  cases hforward : m.forward with
  | true =>
    have hstop : Word.add m.steps.toInt64 0 = .ok m.steps.toInt64 := Word.add_zero _
    simp only [if_true, hring, Bool.false_eq_true, if_false, hstop, ok_bind, pure_eq_ok,
      reduceCtorEq, Bool.true_eq_false, false_and, true_and]
    rintro b ⟨⟩
    have htrips : (⟨.int 0, .int m.steps.toInt64, 1⟩ : Bounds).trips? =
        some (tripCount 0 m.steps.toInt64.toInt 1) := rfl
    rw [htrips, tripCount, if_pos (by decide)]
    congr 1
    split <;> split at hsteps <;> omega
  | false =>
    simp only [Bool.false_eq_true, if_false, true_and]
    constructor
    · rw [bind_eq_error]
      simp only [pure_eq_ok, reduceCtorEq, and_false, exists_false, or_false, Word.sub,
        Word.int_overflows, Word.Fits, hone]
      split at hsteps <;> omega
    · intro b hb
      obtain ⟨start, hstart, hb⟩ := bind_eq_ok.1 hb
      obtain rfl := Except.ok.inj hb
      have hvalue := Word.sub_eq_ok hstart
      rw [hone] at hvalue
      have htrips : (⟨.int start, .int (-1), -1⟩ : Bounds).trips? =
          some (tripCount start.toInt (-1) (-1)) := rfl
      have hunit : -(-1 : Int) = 1 := rfl
      rw [htrips, tripCount, if_neg (by decide), hunit, Int.ediv_one]
      congr 1
      split <;> split at hsteps <;> omega

/-- Every grid of one to three axes under a valid name, with any words for its numbers, is set up
exactly when its border fits twice in the natural numbers. A border from 2^63 on is not refused but
overflows; any smaller one is refused for the first extent that it does not fit. A grid that is set
up loops from the border up to the extent less the border, and in time through as many trips as it
has steps, as long as these fit a signed word. -/
theorem ofSpecs_of_words (hname : Identifier.isValid specs.name)
    (hrank : 0 < specs.shape.length ∧ specs.shape.length ≤ maxRank) :
    ((∃ m, ofSpecs specs = .ok m) ↔ specs.BorderFits) ∧
      (∀ fault, ofSpecs specs = .error fault ↔
        2 ^ 63 ≤ specs.border.toNat ∧ fault = .overflow ∨
          specs.border.toNat < 2 ^ 63 ∧ ∃ before extent after,
            specs.shape = before ++ extent :: after ∧
              (∀ e ∈ before, 2 * specs.border.toNat ≤ e.toNat) ∧
              extent.toNat < 2 * specs.border.toNat ∧
              fault = .cause (.borderTooWide specs.border.toNat extent.toNat)) ∧
      ∀ m, ofSpecs specs = .ok m →
        List.Forall₂ (fun (b : Bounds) (extent : UInt64) =>
          b.step = 1 ∧ b.ends? = some ((specs.border.toNat : Int),
            if extent.toNat - specs.border.toNat < 2 ^ 63 then
              (extent.toNat : Int) - specs.border.toNat
            else (extent.toNat : Int) - specs.border.toNat - 2 ^ 64))
          m.spaceBounds specs.shape.reverse ∧
        (m.timeBounds = .error .overflow ↔
          specs.forward = false ∧ specs.steps.toNat = 2 ^ 63) ∧
        ∀ b, m.timeBounds = .ok b →
          b.trips? = some (if specs.steps.toNat < 2 ^ 63 then specs.steps.toNat else 0) := by
  refine ⟨ofSpecs_accepts_iff hname hrank, fun fault => ofSpecs_eq_error hname hrank, ?_⟩
  intro m hm
  obtain ⟨hconfigured, -, hsaved⟩ := ofSpecs_eq_ok hm
  have hring : m.hasRing = false := by simp [hasRing, hsaved]
  refine ⟨ends?_spaceBounds hconfigured, ?_⟩
  rw [← hconfigured.forward, ← hconfigured.steps]
  exact trips?_timeBounds hring

/-- A backward march of 2^63 steps over a line of 2^64 - 1 cells. -/
def longestSpecs : Specs :=
  { name := "march", steps := 9223372036854775808, shape := [18446744073709551615],
    forward := false }

/-- The border of 2^63 overflows. The longest march is set up, with a space loop that ends below
where it starts and with no time loop. -/
theorem ofSpecs_of_words_longest :
    ofSpecs { longestSpecs with border := 9223372036854775808 } = .error .overflow ∧
      ∃ m b, ofSpecs longestSpecs = .ok m ∧ m.spaceBounds = [b] ∧ b.ends? = some (0, -1) ∧
        m.timeBounds = .error .overflow := by
  constructor
  · exact ((ofSpecs_of_words rfl (by decide)).2.1 _).2 (.inl ⟨by decide, rfl⟩)
  · obtain ⟨haccepts, -, hloops⟩ := @ofSpecs_of_words longestSpecs rfl (by decide)
    obtain ⟨m, hm⟩ := haccepts.2 (by simp [Specs.BorderFits, longestSpecs])
    obtain ⟨hspace, htime, -⟩ := hloops m hm
    obtain ⟨b, rest, ⟨-, hb⟩, hrest, hbounds⟩ := List.forall₂_cons_right_iff.1 hspace
    obtain rfl := List.forall₂_nil_right_iff.1 hrest
    exact ⟨m, b, hm, hbounds, hb, htime.2 ⟨rfl, rfl⟩⟩

end March

end GridKernel
