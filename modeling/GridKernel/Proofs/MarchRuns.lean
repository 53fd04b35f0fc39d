import GridKernel.Proofs.RingBodies
import GridKernel.Proofs.Stepping

/-! Runs of a march. What the declared slots start, what every step keeps from its times treated so
far, and what every grid point of a step keeps from the points before it, holds at the end. -/
namespace GridKernel.March

open Machine

variable {m : March} {specs : Specs} {R : Type} [Arithmetic R]

/-- A name that is not that of a slot scalar of the march. -/
def OffSlots (m : March) (name : String) : Prop := ∀ s ∈ m.slotScalars, s.name ≠ name

theorem OffSlots.ne (hring : m.hasRing) {name : String} (h : m.OffSlots name) {j : Nat}
    (hj : j ≤ m.order.toNat) : name ≠ (slotScalar j).name :=
  (h _ (mem_slotScalars hring hj)).symm

/-- The machine `M'` is `M` with some scalars declared. -/
structure Declared (ss : List Scalar) (M M' : Machine R) : Prop where
  arrays : M'.arrays = M.arrays
  sizes : M'.sizes = M.sizes
  indices : M'.indices = M.indices
  bound : ∀ s ∈ ss, ∃ x, M'.scalars[s.name]? = some x
  scalars : ∀ name, (∀ s ∈ ss, s.name ≠ name) → M'.scalars[name]? = M.scalars[name]?

theorem run_declares (ss : List Scalar) (M : Machine R) :
    ∃ M', runAll (ss.map .declare) M = .done M' ∧ Declared ss M M' := by
  induction ss generalizing M with
  | nil => exact ⟨M, rfl, rfl, rfl, rfl, by simp, fun _ _ => rfl⟩
  | cons s ss ih =>
    obtain ⟨M', hrun, h⟩ := ih (M.bindScalar s.name Arithmetic.zero)
    have hrun' : runAll ((s :: ss).map .declare) M = .done M' := by
      rw [List.map_cons, runAll, run, Outcome.done_andThen, hrun]
    refine ⟨M', hrun', h.arrays, h.sizes, h.indices, fun t ht => ?_, fun name hname => ?_⟩
    · by_cases hlater : ∃ r ∈ ss, r.name = t.name
      · obtain ⟨r, hr, hrt⟩ := hlater
        rw [← hrt]
        exact h.bound r hr
      · push Not at hlater
        have hts : t = s := by
          rcases List.mem_cons.1 ht with hts | hts
          · exact hts
          · exact absurd rfl (hlater t hts)
        rw [h.scalars t.name hlater, hts]
        simp
    · have hne : s.name ≠ name := hname s (by simp)
      rw [h.scalars name fun t ht => hname t (by simp [ht])]
      simp [hne]

/-- The machine `M'` at the start of a step is `M` with the time bound and the slots advanced. -/
structure Entered (m : March) (T : Int) (M M' : Machine R) : Prop where
  slots : m.hasRing → m.Slots T M'
  arrays : M'.arrays = M.arrays
  sizes : M'.sizes = M.sizes
  indices : M'.indices = (M.bindIndex m.timeCounter.name (Int64.ofInt T)).indices
  scalars : ∀ name, m.OffSlots name → M'.scalars[name]? = M.scalars[name]?

theorem Entered.time {T : Int} {M M' : Machine R} (h : m.Entered T M M') :
    M'.indices[m.timeCounter.name]? = some (Int64.ofInt T) := by
  simp [h.indices]

/-- Every time of a march is below its last, the earlier levels of a forward march counted in. -/
theorem mem_times {T : Int} (h : T ∈ m.times) :
    0 ≤ T ∧ T < (m.steps.toNat : Int) + if m.forward then (m.order.toNat : Int) else 0 := by
  obtain ⟨k, hk, rfl⟩ := List.mem_map.1 h
  have hk := List.mem_range.1 hk
  split
  · split <;> omega
  · omega

theorem timeCounter_ne (hm : Configured specs m) {d : Dimension} (hd : d ∈ m.spaceCounters) :
    d.name ≠ m.timeCounter.name := by
  rw [hm.spaceCounters] at hd
  obtain ⟨k, hk, rfl⟩ := List.mem_map.1 hd
  rw [hm.timeCounter]
  intro hname
  have hname : "i" ++ (k + 1).repr = "i" ++ (specs.shape.length + 1).repr := hname
  have hk := List.mem_range.1 hk
  have hsucc := Identifier.append_repr_inj hname
  omega

variable [ExactIntegers R]

/-- A step starts with the time bound and the slots advanced. -/
theorem run_enter (hexact : m.steps.toNat + m.order.toNat < 2 ^ 53) {T : Int} (hT : T ∈ m.times)
    (M : Machine R) : ∃ M', runAll m.advanceSlots (M.bindIndex m.timeCounter.name (Int64.ofInt T)) =
      .done M' ∧ m.Entered T M M' := by
  have hbounds : 0 ≤ T ∧ T < (m.steps.toNat : Int) + m.order.toNat := by
    have hlast := mem_times hT
    split at hlast <;> omega
  cases hring : m.hasRing with
  | true =>
    obtain ⟨M', hrun, hadvanced⟩ := run_advanceSlots (T := T)
      (M := M.bindIndex m.timeCounter.name (Int64.ofInt T)) hring (by omega) (by omega) (by simp)
    refine ⟨M', hrun, fun _ => hadvanced.all, hadvanced.arrays, hadvanced.sizes,
      hadvanced.indices, ?_⟩
    intro name hname
    rw [hadvanced.scalars name fun j hj => hname.ne hring hj]
    rfl
  | false =>
    have hnone : m.advanceSlots = [] := by
      rw [advanceSlots, hring]
      rfl
    have hslots : m.hasRing → m.Slots T (M.bindIndex m.timeCounter.name (Int64.ofInt T)) := by
      intro h
      exact absurd (hring.symm.trans h) Bool.false_ne_true
    exact ⟨M.bindIndex m.timeCounter.name (Int64.ofInt T), by rw [hnone, runAll],
      hslots, rfl, rfl, rfl, fun _ _ => rfl⟩

/-- A run of the loop nest declares the slots, then at every time advances them and runs the space
loops. -/
theorem run_loopNest (hexact : m.steps.toNat + m.order.toNat < 2 ^ 53)
    {point body : Stmt} (hbody : m.loopNest point = .ok body) (M : Machine R) :
    run body M = (runAll (m.slotScalars.map .declare) M).andThen
      (Outcome.sequence (fun T M =>
        (runAll m.advanceSlots (M.bindIndex m.timeCounter.name (Int64.ofInt T))).andThen
          (run (point.nest m.spaceHeads))) m.times) := by
  obtain ⟨bounds, hbounds, hmakes⟩ := makes_times (R := R) hexact
  obtain ⟨bounds', hbounds', hbody⟩ := bind_eq_ok.1 hbody
  obtain rfl := Except.ok.inj (hbounds.symm.trans hbounds')
  obtain rfl := Except.ok.inj hbody
  rw [run, runAll_append]
  congr 1
  funext M'
  rw [runAll_singleton, run, hmakes.2 M' _ trivial, Outcome.sequence_map]
  congr 1
  funext T M
  rw [bindAll_cons, bindAll_nil, run, runAll_append]
  congr 1
  funext M
  rw [runAll_singleton]

/-- What holds of the times treated so far and of the machine after the steps at them, `P`, holds at
the end of the loop nest. Within a step, `S` holds of the grid points treated so far. -/
theorem ends_loopNest {F : Fault → Machine R → Prop} (hm : Configured specs m)
    (hexact : m.steps.toNat + m.order.toNat < 2 ^ 53)
    (hextents : ∀ extent ∈ specs.shape, extent.toNat < 2 ^ 53) {point body : Stmt}
    (hbody : m.loopNest point = .ok body) (hloops : point.loops = [])
    (P : List Int → Machine R → Prop) (S : List Int → Int → List (List Int64) → Machine R → Prop)
    (henter : ∀ before T after, m.times = before ++ T :: after → ∀ M M', P before M →
      m.Entered T M M' → S before T [] M')
    (hbind : ∀ before T visited M, ∀ d ∈ m.spaceCounters, ∀ i, S before T visited M →
      S before T visited (M.bindIndex d.name i))
    (hpoint : ∀ before T after, m.times = before ++ T :: after → ∀ visited p rest,
      specs.points = visited ++ p :: rest → ∀ M, S before T visited M → At M m.spaceCounters p →
      (run point M).Ends (S before T (visited ++ [p])) F)
    (hleave : ∀ before T after, m.times = before ++ T :: after → ∀ M, S before T specs.points M →
      P (before ++ [T]) M)
    {M : Machine R} (h : ∀ M', Declared m.slotScalars M M' → P [] M') :
    (run body M).Ends (P m.times) F := by
  obtain ⟨M', hrun, hdeclared⟩ := run_declares m.slotScalars M
  rw [run_loopNest hexact hbody, hrun, Outcome.done_andThen]
  refine Outcome.ends_sequence P ?_ (h M' hdeclared)
  intro before T after htimes M hP
  obtain ⟨M', hrun, hentered⟩ := run_enter hexact (T := T) (by simp [htimes]) M
  rw [hrun, Outcome.done_andThen]
  refine (ends_points hm hextents (S before T) hloops (hbind before T) ?_
    (henter before T after htimes M M' hP hentered)).mono (hleave before T after htimes)
  exact hpoint before T after htimes

end GridKernel.March
