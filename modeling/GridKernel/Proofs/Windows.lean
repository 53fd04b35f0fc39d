import GridKernel.Proofs.Levels

/-! Windows of levels. A ring holds the levels of the last times of a march, each in a slot of its
own; a step reads the levels before its time and puts the level of its time into the slot of the one
that leaves the window. -/
namespace GridKernel.March

variable {m : March} {specs : Specs}

/-- The levels that a ring holds after some steps: those before the first step at the start, after
that the level of the last step and all that it may read. -/
def window (m : March) (count : Nat) (T : Int) : Prop :=
  if m.forward then ((count - 1 : Nat) : Int) ≤ T ∧ T < (m.order.toNat : Int) + count
  else (m.steps.toNat : Int) - count ≤ T ∧
    T < (m.steps.toNat : Int) + m.order.toNat - (count - 1 : Nat)

/-- The time `T'` is one of the `order` times that a march comes to before `T`. -/
def Past (m : March) (T T' : Int) : Prop :=
  if m.forward then T - m.order.toNat ≤ T' ∧ T' < T else T < T' ∧ T' ≤ T + m.order.toNat

theorem Past.ne {T T' : Int} (h : m.Past T T') : T' ≠ T := by
  unfold Past at h
  split at h <;> omega

theorem Past.add {k : Int} (h : m.Past 0 k) (T : Int) : m.Past T (T + k) := by
  unfold Past at h ⊢
  split at h
  · rw [if_pos ‹_›]
    omega
  · rw [if_neg ‹_›]
    omega

/-- The levels before a time are kept in the ring at that time. -/
theorem Past.inRing {k : Int64} (h : m.Past 0 k.toInt) : m.InRing k := by
  unfold Past at h
  rw [inRing_iff, Kept]
  split at h
  · rw [if_pos ‹_›]
    omega
  · rw [if_neg ‹_›]
    omega

/-- A level before a time is in another slot than the level of that time. -/
theorem Past.ringSlot_ne {T T' : Int} (h : m.Past T T') : m.ringSlot T' ≠ m.ringSlot T := by
  intro hslots
  have hnear : (T' - T).natAbs ≤ m.order.toNat := by
    unfold Past at h
    split at h <;> omega
  exact h.ne (eq_of_ringSlot_eq hslots hnear)

/-- The time of a step is counted from the times of the steps before it. -/
theorem time_eq (hring : m.hasRing) {before after : List Int} {T : Int}
    (h : m.times = before ++ T :: after) :
    (if m.forward then T = (m.order.toNat : Int) + before.length
      else T = (m.steps.toNat : Int) - 1 - before.length) ∧ before.length < m.steps.toNat := by
  have hget : m.times[before.length]? = some T := by
    rw [h, List.getElem?_append_right le_rfl, Nat.sub_self]
    rfl
  unfold times at hget
  rw [List.getElem?_map] at hget
  obtain ⟨k, hk, hT⟩ := Option.map_eq_some_iff.1 hget
  obtain ⟨hlt, hk⟩ := List.getElem?_eq_some_iff.1 hk
  obtain rfl : before.length = k := by rw [← hk, List.getElem_range]
  rw [List.length_range] at hlt
  rw [hring, if_pos rfl] at hT
  refine ⟨?_, hlt⟩
  split at hT
  · rw [if_pos ‹_›, hT]
  · rw [if_neg ‹_›, hT]

/-- The levels that a step reads are in the window before it. -/
theorem Past.window (hring : m.hasRing) {before after : List Int} {T T' : Int}
    (htimes : m.times = before ++ T :: after) (h : m.Past T T') : m.window before.length T' := by
  obtain ⟨hT, -⟩ := time_eq hring htimes
  unfold Past at h
  unfold March.window
  split at hT
  · simp only [if_pos ‹m.forward = true›] at h ⊢
    omega
  · simp only [if_neg ‹¬ m.forward = true›] at h ⊢
    omega

/-- The window after a step has the level of the step and levels that the step may read. -/
theorem window_succ (hring : m.hasRing) {before after : List Int} {T T' : Int}
    (htimes : m.times = before ++ T :: after) (h : m.window (before ++ [T]).length T') :
    T' = T ∨ m.Past T T' := by
  obtain ⟨hT, -⟩ := time_eq hring htimes
  rw [List.length_append, List.length_singleton] at h
  unfold window at h
  unfold Past
  split at hT
  · simp only [if_pos ‹m.forward = true›] at h ⊢
    omega
  · simp only [if_neg ‹¬ m.forward = true›] at h ⊢
    omega

/-- The levels that a step reads are those of times from `order` before the first. -/
theorem During.past_bounded {R : Type} [Arithmetic R] {T T' : Int} {M : Machine R}
    (h : m.During T M) (hpast : m.Past T T') :
    -(m.order.toNat : Int) ≤ T' ∧ T' < (m.steps.toNat : Int) + m.order.toNat := by
  have hbounded := h.bounded
  unfold Past at hpast
  split at hpast
  · rw [if_pos ‹_›] at hbounded
    omega
  · rw [if_neg ‹_›] at hbounded
    omega

end GridKernel.March
