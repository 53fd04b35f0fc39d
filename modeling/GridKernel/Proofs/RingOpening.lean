import GridKernel.Proofs.Levels
import GridKernel.Proofs.Registrations

/-! Opening a ring. A march has a ring once some registered array is not saved, also when that array
has no time axis and so no levels to keep. The ring that such an array opens shifts the times of a
forward march, and no reference to the array uses its slots. -/
namespace GridKernel.March

variable {m m' : March} {specs : Specs} {a : GridArray}

/-- Two marches step through time alike. -/
structure StepsAlike (m m' : March) : Prop where
  ring : m'.hasRing = m.hasRing
  slots : m'.slotScalars = m.slotScalars
  advances : m'.advanceSlots = m.advanceSlots
  bounds : m'.timeBounds = m.timeBounds

/-- A ring is opened: there are slots to declare and to advance, and a forward march takes the steps
of all its times later by the order. -/
structure Opens (m m' : March) : Prop where
  ring : m.hasRing = false ∧ m'.hasRing = true
  slots : m.slotScalars = [] ∧
    m'.slotScalars = (List.range (m.order.toNat + 1)).map slotScalar
  advances : m.advanceSlots = [] ∧ m'.advanceSlots.length = m.order.toNat + 1
  bounds : m'.timeBounds = m.timeBounds ↔ m.forward = false ∨ m.order = 0
  times : m'.times = m.times.map (· + if m.forward then (m.order.toNat : Int) else 0)

section Registering

variable {entry : EntryPoint} {saved : List (String × Bool)}

/-- Registrations change the steps in time by opening a ring only. -/
theorem stepsAlike_iff :
    StepsAlike m { m with entry, saved } ↔ ({ m with entry, saved } : March).hasRing = m.hasRing := by
  refine ⟨StepsAlike.ring, fun hring => ?_⟩
  exact
    { ring := hring
      slots := by simp only [slotScalars, hring]
      advances := by simp only [advanceSlots, hring]
      bounds := by simp only [timeBounds, hring] }

theorem timeBounds_eq_iff (hold : m.hasRing = false)
    (hnew : ({ m with entry, saved } : March).hasRing = true) :
    ({ m with entry, saved } : March).timeBounds = m.timeBounds ↔
      m.forward = false ∨ m.order = 0 := by
  simp only [timeBounds, hold, hnew, if_true]
  cases m.forward with
  | false => simp
  | true =>
    have hstart : Word.add m.steps.toInt64 0 = .ok m.steps.toInt64 := Word.add_zero _
    simp only [if_true, Bool.false_eq_true, if_false, hstart, ok_bind, Bool.true_eq_false, false_or]
    constructor
    · intro h
      obtain ⟨stop, -, h⟩ := bind_eq_ok.1 h
      have hlower := congrArg Bounds.lower (Except.ok.inj h)
      exact congrArg Int64.toUInt64 (Expr.int.inj hlower)
    · intro h
      have hzero : m.order.toInt64 = 0 := by rw [h]; rfl
      rw [hzero, hstart]
      rfl

theorem opens_of_hasRing (hold : m.hasRing = false)
    (hnew : ({ m with entry, saved } : March).hasRing = true) :
    Opens m { m with entry, saved } where
  ring := ⟨hold, hnew⟩
  slots := by simp [slotScalars, hold, hnew]
  advances := by
    refine ⟨by simp [advanceSlots, hold], ?_⟩
    rw [advanceSlots_eq hnew, List.length_map, List.length_range]
  bounds := timeBounds_eq_iff hold hnew
  times := by
    simp only [times, hold, hnew, if_true, List.map_map]
    refine List.map_congr_left fun k _ => ?_
    cases m.forward <;> simp [Int.add_comm]

end Registering

/-- There is a ring when some registered array is not saved. -/
theorem Parameters.hasRing_iff (h : Parameters specs m) :
    m.hasRing ↔ ∃ a ∈ m.entry.arrays, m.isRinged a.name := by
  constructor
  · intro hring
    obtain ⟨s, hs, hsaved⟩ := List.any_eq_true.1 hring
    obtain ⟨a, ha, hname, -⟩ := forall₂_mem_right h.arrays hs
    have heq : (a.name, false) = s := Prod.ext hname (by simpa using hsaved)
    have hringed : m.isRinged a.name := by
      rw [h.isRinged_iff, heq]
      exact hs
    exact ⟨a, ha, hringed⟩
  · intro h
    obtain ⟨a, -, ha⟩ := h
    exact hasRing_of_isRinged ha

/-- The axes of an array with one extent for each axis of the grid are those of space. -/
theorem dims_of_addArray {name : String} {shape : List UInt64} {element : ElementType} {save : Bool}
    (hrank : shape.length = m.rank) (h : m.addArray name shape element save = .ok (m', a)) :
    a.dims = m.spaceDims := by
  rw [addArray_eq_request] at h
  obtain ⟨b, hb, h⟩ := bind_eq_ok.1 h
  obtain ⟨entry, -, h⟩ := bind_eq_ok.1 h
  obtain ⟨-, rfl⟩ := Prod.mk.inj (Except.ok.inj h)
  rw [request_eq_ok hb]
  exact if_neg (by omega)

/-- A march has a ring once some registered array is not saved, whatever its axes. Registering an
array without a time axis leaves the steps in time as they are exactly when it is saved or a ring is
there already. Otherwise it opens a ring, and no reference to the array gets a slot. -/
theorem unsaved_opens_ring (hm : Registered specs m) :
    (m.hasRing ↔ ∃ a ∈ m.entry.arrays, m.isRinged a.name) ∧
      ∀ name shape element save m' a, shape.length = m.rank →
        m.addArray name shape element save = .ok (m', a) →
          (StepsAlike m m' ↔ save = true ∨ m.hasRing = true) ∧
            (save = false → m.hasRing = false → Opens m m' ∧
              ∀ e, (∀ b es, .access b es ∈ e.nodes → b.name = a.name →
                b = a ∧ es.length ≤ a.rank) → m'.toRing e = .ok e) := by
  obtain ⟨hconfigured, hparameters⟩ := hm.invariant
  refine ⟨hparameters.hasRing_iff, ?_⟩
  intro name shape element save m' a hrank hadd
  have hdims := dims_of_addArray hrank hadd
  have hnext := (Registered.array hm hadd).invariant.2
  obtain ⟨rfl, -, -, rfl⟩ := addArray_eq_ok hconfigured hadd
  have hring : ∀ entry, ({ m with entry, saved := m.saved ++ [(a.name, save)] } : March).hasRing =
      (m.hasRing || !save) := by simp [hasRing]
  constructor
  · rw [stepsAlike_iff, hring]
    cases save <;> cases m.hasRing <;> simp
  · intro hsave hold
    have hnew := hring { m.entry with arrays := m.entry.arrays ++ [a] }
    rw [hold, hsave] at hnew
    subst hsave
    refine ⟨opens_of_hasRing hold hnew, fun e he => ?_⟩
    rw [toRing_eq]
    apply toSlots_of_untimed
    intro b es hb hringed
    have hname : b.name = a.name := by
      rcases List.mem_append.1 (hnext.isRinged_iff.1 hringed) with h | h
      · have hearlier := hasRing_of_isRinged (hparameters.isRinged_iff.2 h)
        rw [hold] at hearlier
        cases hearlier
      · exact congrArg Prod.fst (List.mem_singleton.1 h)
    obtain ⟨rfl, hlength⟩ := he b es hb hname
    constructor
    · rw [hdims]
      exact isTime_spaceDims hconfigured
    · exact hlength

/-- A line without a time axis that is not saved. -/
theorem exists_unsavedLine :
    ∃ m m' a, Registered ringSpecs m ∧ m.addArray "c" [4] .float64 false = .ok (m', a) ∧
      m.rank = 1 ∧ m.forward = true ∧ m.hasRing = false ∧ m.times = [0, 1, 2] ∧ m.order = 1 :=
  ⟨_, _, _, .start rfl, rfl, rfl, rfl, rfl, rfl, rfl⟩

/-- The line makes a march of three steps start one step later. -/
theorem unsaved_opens_ring_line :
    ∃ m m' a, Registered ringSpecs m ∧ m.addArray "c" [4] .float64 false = .ok (m', a) ∧
      ¬ StepsAlike m m' ∧ m'.slotScalars = [slotScalar 0, slotScalar 1] ∧ m.times = [0, 1, 2] ∧
      m'.times = [1, 2, 3] := by
  obtain ⟨m, m', a, hm, hadd, hrank, hforward, hold, htimes, horder⟩ := exists_unsavedLine
  obtain ⟨halike, hopens⟩ := (unsaved_opens_ring hm).2 "c" [4] .float64 false m' a
    (by rw [hrank]; rfl) hadd
  have hopened := (hopens rfl hold).1
  refine ⟨m, m', a, hm, hadd, ?_, ?_, htimes, ?_⟩
  · intro h
    rcases halike.1 h with hsaved | hring
    · cases hsaved
    · rw [hold] at hring
      cases hring
  · rw [hopened.slots.2, horder]
    rfl
  · rw [hopened.times, htimes, hforward, horder]
    rfl

end GridKernel.March
