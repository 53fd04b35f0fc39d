import Mathlib.Data.List.Perm.Subperm
import GridKernel.Proofs.Binary64Closeness
import GridKernel.Proofs.TimeOffsets

/-! Slots and absolute times. At the top of a step the slot scalars are set to the numbers of all
slots in some order, by remainders of numbers that are not negative. The slot that is chosen for a
level then holds a number that depends on the time of the level alone, so every step that refers to
the level finds it there. -/
namespace GridKernel.March

open Machine

variable {m : March} {T : Int}

/-- The numbers that the slot scalars hold at a time. -/
def slotNumbers (m : March) (T : Int) : List Nat :=
  (List.range (m.order.toNat + 1)).map fun j => (m.ringSlot (m.levelOf T j)).toNat

theorem levelOf_inj {i j : Nat} (h : m.levelOf T i = m.levelOf T j) : i = j := by
  unfold levelOf at h
  split at h <;> omega

theorem nodup_slotNumbers (m : March) (T : Int) : (m.slotNumbers T).Nodup := by
  refine List.Nodup.map_on (fun i hi j hj hnumbers => ?_) List.nodup_range
  have hi := List.mem_range.1 hi
  have hj := List.mem_range.1 hj
  have hnonneg := m.ringSlot_nonneg
  have hslots : m.ringSlot (m.levelOf T i) = m.ringSlot (m.levelOf T j) := by
    rw [← Int.toNat_of_nonneg (hnonneg (m.levelOf T i)), hnumbers, Int.toNat_of_nonneg (hnonneg _)]
  refine levelOf_inj (eq_of_ringSlot_eq hslots ?_)
  unfold levelOf
  split <;> omega

/-- At every time the slot scalars hold each slot once. -/
theorem slotNumbers_perm (m : March) (T : Int) :
    (m.slotNumbers T).Perm (List.range (m.order.toNat + 1)) := by
  have hsubset : m.slotNumbers T ⊆ List.range (m.order.toNat + 1) := by
    intro n hn
    obtain ⟨j, -, rfl⟩ := List.mem_map.1 hn
    have hlow := m.ringSlot_nonneg (m.levelOf T j)
    have hhigh := m.ringSlot_lt (m.levelOf T j)
    exact List.mem_range.2 (by omega)
  refine (List.subperm_of_subset (nodup_slotNumbers m T) hsubset).perm_of_length_le ?_
  rw [slotNumbers, List.length_map]

variable {R : Type} {M M' : Machine R}

/-- The time counter stands at a time that is exact together with the levels around it. -/
structure StandsAt (m : March) (T : Int) (M : Machine R) : Prop where
  nonneg : 0 ≤ T
  exact : T + m.order.toNat < 2 ^ 53
  counter : M.indices[m.timeCounter.name]? = some (Int64.ofInt T)

theorem StandsAt.order_lt (h : m.StandsAt T M) : m.order.toNat < 2 ^ 53 := by
  have hnonneg := h.nonneg
  have hexact := h.exact
  omega

theorem StandsAt.bounded (h : m.StandsAt T M) : T.natAbs ≤ 2 ^ 53 := by
  have hnonneg := h.nonneg
  have hexact := h.exact
  omega

/-- A slot is chosen only for a level that the ring keeps. -/
theorem kept_of_slotAt (horder : m.order.toNat < 2 ^ 62) {e f : Expr} {k : Int}
    (he : m.AtOffset e k) (hslot : m.slotAt e = .ok f) : m.Kept k := by
  by_contra hkept
  rw [slotAt_of_atOffset horder he, if_neg hkept] at hslot
  cases hslot

variable [Arithmetic R]

/-- The slot chosen for a level that the ring keeps holds the slot of the time of the level. -/
theorem Slots.chosen (h : m.Slots T M) (horder : m.order.toNat < 2 ^ 62) {e : Expr} {k : Int}
    (he : m.AtOffset e k) (hkept : m.Kept k) :
    ∃ s, m.slotAt e = .ok (.scalar s) ∧ M.Evaluates (.scalar s) (m.ringSlot (T + k)) := by
  have hrange := kept_iff.1 hkept
  obtain ⟨x, hx, hslot⟩ := h (m.slotNumber k).toNat (by omega)
  rw [levelOf_slotNumber hkept] at hslot
  refine ⟨_, ?_, .scalar hx hslot⟩
  rw [slotAt_of_atOffset horder he, if_pos hkept]

/-- The slot scalars hold the numbers of all slots. -/
theorem Slots.numbers (h : m.Slots T M) (hring : m.hasRing) :
    List.Forall₂ (fun s (n : Nat) => M.Evaluates (.scalar s) n) m.slotScalars
      (m.slotNumbers T) := by
  rw [slotScalars, if_pos hring, slotNumbers, List.forall₂_map_left_iff,
    List.forall₂_map_right_iff, List.forall₂_same]
  intro j hj
  have hj := List.mem_range.1 hj
  obtain ⟨x, hx, hslot⟩ := h j (by omega)
  rw [Int.toNat_of_nonneg (m.ringSlot_nonneg _)]
  exact .scalar hx hslot

/-- Every remainder that a statement takes is of a number that is not negative, so it is the same
whether its quotient is rounded down or toward zero. -/
def TakesPlainRemainders (s : Stmt) (M : Machine R) : Prop :=
  ∀ e ∈ s.exprs, ∀ l r, .binary .rem l r ∈ e.nodes → ∃ a b : Int, M.Evaluates l a ∧
    M.Evaluates r b ∧ 0 ≤ a ∧ 0 < b ∧ M.Evaluates (.binary .rem l r) (a.tmod b)

variable [ExactIntegers R]

theorem StandsAt.run (h : m.StandsAt T M) (hring : m.hasRing) :
    ∃ M', runAll m.advanceSlots M = .done M' ∧ m.Slots T M' := by
  obtain ⟨M', hrun, hadvanced⟩ := run_advanceSlots hring h.order_lt h.bounded h.counter
  exact ⟨M', hrun, hadvanced.all⟩

theorem StandsAt.slots (h : m.StandsAt T M) (hring : m.hasRing)
    (hrun : runAll m.advanceSlots M = .done M') : m.Slots T M' := by
  obtain ⟨M'', hrun', hslots⟩ := h.run hring
  obtain rfl : M' = M'' := congrArg Outcome.machine (hrun.symm.trans hrun')
  exact hslots

/-- A slot is set by a remainder of the time or of a number past a slot. -/
theorem StandsAt.remainders (h : m.StandsAt T M) (hring : m.hasRing) {before after : List Stmt}
    {s : Stmt} (hsplit : m.advanceSlots = before ++ s :: after) :
    ∃ M₁, runAll before M = .done M₁ ∧ TakesPlainRemainders s M₁ := by
  rw [advanceSlots_eq hring] at hsplit
  obtain ⟨firsts, lasts, hrange, rfl, hlasts⟩ := List.map_eq_append_iff.1 hsplit
  obtain ⟨n, lasts, rfl, rfl, -⟩ := List.map_eq_cons_iff.1 hlasts
  obtain ⟨hn, rfl⟩ := range_eq_append hrange
  obtain ⟨M₁, hrun, hadvanced⟩ := run_advances h.order_lt h.bounded h.counter hn.le
  refine ⟨M₁, hrun, fun e he l r hrem => ?_⟩
  obtain ⟨rfl, rfl⟩ := eq_of_rem_mem he hrem
  have hdividend := evaluates_dividend h.order_lt h.bounded h.counter hadvanced
  have hdivisor := evaluates_divisor h.order_lt M₁
  have hvalue := dividendAt_nonneg (m := m) h.nonneg n
  refine ⟨_, _, hdividend, hdivisor, hvalue, by omega, ?_⟩
  rw [Int.tmod_eq_emod_of_nonneg hvalue]
  exact hdividend.rem hdivisor (by omega)

/-- Advancing the slots, whatever they held, sets them to the numbers of all slots in some order by
remainders of numbers that are not negative. The slot chosen for a level that the ring keeps then
holds the slot of the time of the level, as it does at every other time from which the level can be
referred to. -/
theorem advanceSlots_track (hring : m.hasRing) (h : m.StandsAt T M) :
    ∃ M', runAll m.advanceSlots M = .done M' ∧
      (∃ numbers : List Nat, numbers.Perm (List.range (m.order.toNat + 1)) ∧
        List.Forall₂ (fun s (n : Nat) => M'.Evaluates (.scalar s) n) m.slotScalars numbers) ∧
      (∀ before s after, m.advanceSlots = before ++ s :: after →
        ∃ M₁, runAll before M = .done M₁ ∧ TakesPlainRemainders s M₁) ∧
      ∀ e k, m.AtOffset e k → m.Kept k → ∃ s, m.slotAt e = .ok (.scalar s) ∧
        M'.Evaluates (.scalar s) (m.ringSlot (T + k)) ∧
        ∀ T₁ (M₁ M₁' : Machine R) e₁ k₁ s₁, m.StandsAt T₁ M₁ →
          runAll m.advanceSlots M₁ = .done M₁' → m.AtOffset e₁ k₁ →
          m.slotAt e₁ = .ok (.scalar s₁) → T₁ + k₁ = T + k →
          M₁'.Evaluates (.scalar s₁) (m.ringSlot (T + k)) := by
  have horder : m.order.toNat < 2 ^ 62 := h.order_lt.trans (by decide)
  obtain ⟨M', hrun, hslots⟩ := h.run hring
  refine ⟨M', hrun, ⟨m.slotNumbers T, slotNumbers_perm m T, hslots.numbers hring⟩,
    fun before s after hsplit => h.remainders hring hsplit, fun e k he hkept => ?_⟩
  obtain ⟨s, hs, hvalue⟩ := hslots.chosen horder he hkept
  refine ⟨s, hs, hvalue, fun T₁ M₁ M₁' e₁ k₁ s₁ h₁ hrun₁ he₁ hs₁ htime => ?_⟩
  have hkept₁ := kept_of_slotAt horder he₁ hs₁
  obtain ⟨s₁', hs₁', hvalue₁⟩ := (h₁.slots hring hrun₁).chosen horder he₁ hkept₁
  obtain rfl : s₁ = s₁' := by simpa [hs₁] using hs₁'
  rwa [← htime]

def backwardSpecs : Specs :=
  { name := "back", steps := 9, shape := [4], forward := false, order := 2 }

/-- A march that runs back in time with three levels in its ring. -/
theorem exists_backward :
    ∃ m, Registered backwardSpecs m ∧ m.hasRing ∧ m.order = 2 ∧ m.forward = false ∧
      m.timeCounter.name = "i2" :=
  ⟨_, .array (.start rfl) (rfl : addArray _ "v" [3, 4] .float64 false = .ok _), rfl, rfl, rfl, rfl⟩

/-- One time before a level and at its own time the level is found in the same slot. -/
theorem advanceSlots_track_backward :
    ∃ m M M₁, Registered backwardSpecs m ∧ m.hasRing ∧
      m.StandsAt 7 (({} : Machine Binary64).bindIndex "i2" 7) ∧
      m.StandsAt 8 (({} : Machine Binary64).bindIndex "i2" 8) ∧
      runAll m.advanceSlots (({} : Machine Binary64).bindIndex "i2" 7) = .done M ∧
      runAll m.advanceSlots (({} : Machine Binary64).bindIndex "i2" 8) = .done M₁ ∧
      ∃ s s₁, m.slotAt (.binary .add (.dim m.timeDim) (.int 1)) = .ok (.scalar s) ∧
        m.slotAt (.dim m.timeDim) = .ok (.scalar s₁) ∧
        M.Evaluates (.scalar s) 2 ∧ M₁.Evaluates (.scalar s₁) 2 := by
  obtain ⟨m, hm, hring, horder, hforward, hcounter⟩ := exists_backward
  have hstands : ∀ n : Int64, 0 ≤ n.toInt ∧ n.toInt ≤ 8 →
      m.StandsAt n.toInt (({} : Machine Binary64).bindIndex "i2" n) := by
    intro n hn
    refine ⟨hn.1, ?_, by rw [hcounter, Int64.ofInt_toInt]; simp⟩
    have htwo : (2 : UInt64).toNat = 2 := rfl
    rw [horder, htwo]
    omega
  have hkept : ∀ k : Int, 0 ≤ k ∧ k ≤ 2 → m.Kept k := by
    intro k hk
    rw [Kept, if_neg (by simp [hforward]), horder]
    exact hk
  have hslot : m.ringSlot 8 = 2 := by
    rw [ringSlot, if_neg (by simp [hforward]), horder]
    rfl
  obtain ⟨M, hrun, -, -, hchosen⟩ := advanceSlots_track hring (hstands 7 (by decide))
  obtain ⟨M₁, hrun₁, -, -, hchosen₁⟩ := advanceSlots_track hring (hstands 8 (by decide))
  obtain ⟨s, hs, hvalue, hsame⟩ := hchosen _ _ (.plus 1) (hkept _ (by decide))
  obtain ⟨s₁, hs₁, -, -⟩ := hchosen₁ _ _ .now (hkept 0 (by decide))
  have hvalue₁ := hsame _ _ _ _ _ _ (hstands 8 (by decide)) hrun₁ .now hs₁ (by decide)
  exact ⟨m, M, M₁, hm, hring, hstands 7 (by decide), hstands 8 (by decide), hrun, hrun₁, s, s₁, hs,
    hs₁, hslot ▸ hvalue, hslot ▸ hvalue₁⟩

end GridKernel.March
