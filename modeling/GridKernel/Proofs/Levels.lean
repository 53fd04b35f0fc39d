import GridKernel.Proofs.Stencils

/-! Levels. During a step, a time index at an offset from the current time stands for the level at
that offset: its slot in a ring, the level itself in an array with all levels saved. -/
namespace GridKernel.March

open Machine

variable {m : March} {specs : Specs}

section Resolve

variable {e l r : Expr} {a : GridArray} {es : List Expr}

theorem resolveExpr_eq (m : March) (e : Expr) :
    m.resolveExpr e = do return (← m.toSlots e).replace m.toCounters := by
  rw [resolveExpr, toRing_eq]

theorem resolveExpr_flat (h : Flat e) : m.resolveExpr e = .ok (e.replace m.toCounters) := by
  rw [resolveExpr_eq, toSlots_of_flat e h]
  rfl

theorem resolveExpr_neg : m.resolveExpr (.neg e) = do return .neg (← m.resolveExpr e) := by
  rw [resolveExpr_eq, resolveExpr_eq, toSlots]
  cases m.toSlots e with
  | error _ => rfl
  | ok e' => simp [Expr.replace_neg m.toCounters_renamesAxes]

theorem resolveExpr_binary {op : BinaryOp} : m.resolveExpr (.binary op l r) =
    do return .binary op (← m.resolveExpr l) (← m.resolveExpr r) := by
  rw [resolveExpr_eq, resolveExpr_eq, resolveExpr_eq, toSlots]
  cases m.toSlots l with
  | error _ => rfl
  | ok l' =>
    cases m.toSlots r with
    | error _ => rfl
    | ok r' => simp [Expr.replace_binary m.toCounters_renamesAxes]

theorem resolveExpr_neg_eq_ok {f : Expr} :
    m.resolveExpr (.neg e) = .ok f ↔ ∃ e', m.resolveExpr e = .ok e' ∧ f = .neg e' := by
  rw [resolveExpr_neg, return_eq_ok]
  simp only [and_comm]

/-- An operator is resolved with its operands, each on its own. -/
theorem resolveExpr_binary_eq_ok {op : BinaryOp} {f : Expr} :
    m.resolveExpr (.binary op l r) = .ok f ↔
      ∃ l' r', m.resolveExpr l = .ok l' ∧ m.resolveExpr r = .ok r' ∧ f = .binary op l' r' := by
  simp only [resolveExpr_binary, bind_eq_ok]
  constructor
  · rintro ⟨l', hl, r', hr, h⟩
    exact ⟨l', r', hl, hr, (Except.ok.inj h).symm⟩
  · rintro ⟨l', r', hl, hr, rfl⟩
    exact ⟨l', hl, r', hr, rfl⟩

theorem resolveExpr_access : m.resolveExpr (.access a es) = do
    let slotted ← m.slotIndices (m.isRinged a.name) a.dims es
    return .access a (Expr.replaceAll m.toCounters slotted) := by
  rw [resolveExpr_eq, toSlots_access]
  cases m.slotIndices (m.isRinged a.name) a.dims es with
  | error _ => rfl
  | ok es' => simp [Expr.replace_access m.toCounters_renamesAxes]

/-- Indices on axes other than time are treated alike with and without a ring. -/
theorem slotIndices_spatial (ringed : Bool) {ds : List Dimension}
    (hds : ∀ d ∈ ds, d.isTime = false) (hlength : es.length = ds.length) :
    m.slotIndices ringed ds es = m.toSlotsAll es := by
  unfold slotIndices
  split
  · induction es generalizing ds with
    | nil => rfl
    | cons e es ih =>
      cases ds with
      | nil => cases hlength
      | cons d ds =>
        have hd : d.isTime = false := hds d (by simp)
        rw [ringIndices, toSlotsAll, ih (fun d hd => hds d (by simp [hd])) (by simpa using hlength)]
        simp [hd]
  · rfl

theorem isTime_spaceDims (hm : Configured specs m) : ∀ d ∈ m.spaceDims, d.isTime = false := by
  rw [hm.spaceDims]
  intro d hd
  obtain ⟨name, -, rfl⟩ := List.mem_map.1 hd
  rfl

theorem isTime_timeDim (hm : Configured specs m) : m.timeDim.isTime = true := by
  rw [hm.timeDim]
  rfl

theorem flat_of_offset? {d : Dimension} {k : Int64} (h : e.offset? = .ok (some (d, k))) :
    Flat e :=
  Expr.nodes_of_offset? (by simp) (by simp) (by simp) h

/-- The index of a level: the scalar of its slot in a ring, else the time index itself. -/
def levelIndex (m : March) (ringed : Bool) (e : Expr) (k : Int64) : Expr :=
  if ringed then .scalar (slotScalar (m.slotIndex k).toNat) else e

/-- A time index in front of others becomes the index of its level. -/
theorem slotIndices_timed (hm : Configured specs m) (horder : m.order.toNat < 2 ^ 53)
    (ringed : Bool) (ds : List Dimension) {k : Int64} (he : e.offset? = .ok (some (m.timeDim, k)))
    (hk : m.InRing k) : m.slotIndices ringed (m.timeDim :: ds) (e :: es) =
      do return m.levelIndex ringed e k :: (← m.slotIndices ringed ds es) := by
  cases ringed with
  | true =>
    simp only [slotIndices, levelIndex, if_true, ringIndices, isTime_timeDim hm,
      slotAt_eq horder he hk]
    rfl
  | false =>
    simp only [slotIndices, levelIndex, Bool.false_eq_true, if_false, toSlotsAll,
      toSlots_of_flat e (flat_of_offset? he)]
    rfl

end Resolve

variable {R : Type} [Arithmetic R]

/-- The machine is at a step: the time is bound and the slots are those of the step. -/
structure During (m : March) (T : Int) (M : Machine R) : Prop where
  bounded : 0 ≤ T ∧ T < (m.steps.toNat : Int) + if m.forward then (m.order.toNat : Int) else 0
  time : M.indices[m.timeCounter.name]? = some (Int64.ofInt T)
  slots : m.hasRing → m.Slots T M

/-- The row that a level is kept in. -/
def row (m : March) (ringed : Bool) (T : Int) : Int := if ringed then m.ringSlot T else T

theorem Entered.during {T : Int} {M M' : Machine R} (h : m.Entered T M M') (hT : T ∈ m.times) :
    m.During T M' :=
  ⟨mem_times hT, h.time, h.slots⟩

namespace During

variable {T : Int} {M M' : Machine R}

/-- A machine that binds the time and the slots alike is at the same step. -/
theorem congr (h : m.During T M)
    (htime : M'.indices[m.timeCounter.name]? = M.indices[m.timeCounter.name]?)
    (hslots : ∀ s ∈ m.slotScalars, M'.scalars[s.name]? = M.scalars[s.name]?) : m.During T M' := by
  refine ⟨h.bounded, htime.trans h.time, fun hring j hj => ?_⟩
  rw [hslots _ (mem_slotScalars hring hj)]
  exact h.slots hring j hj

theorem bindIndex (hm : Configured specs m) (h : m.During T M) {d : Dimension}
    (hd : d ∈ m.spaceCounters) (i : Int64) : m.During T (M.bindIndex d.name i) := by
  refine h.congr ?_ fun _ _ => rfl
  simp [timeCounter_ne hm hd]

theorem bindArray (h : m.During T M) (name : String) (b : Buffer R) :
    m.During T (M.bindArray name b) := h.congr rfl fun _ _ => rfl

theorem bindScalar (h : m.During T M) {name : String} (hname : m.OffSlots name) (x : R) :
    m.During T (M.bindScalar name x) := by
  refine h.congr rfl fun s hs => ?_
  have hne : name ≠ s.name := (hname s hs).symm
  simp [hne]

/-- The slot at an offset from the current time has the row of its level as its value. -/
theorem evaluates_slot (h : m.During T M) (hring : m.hasRing) {k : Int64} (hk : m.InRing k) :
    M.Evaluates (.scalar (slotScalar (m.slotIndex k).toNat)) (m.ringSlot (T + k.toInt)) := by
  obtain ⟨x, hx, hslot⟩ := h.slots hring (m.slotIndex k).toNat (by have := hk.2; omega)
  rw [levelOf_slotIndex hk] at hslot
  exact .scalar hx hslot

variable [ExactIntegers R]

theorem evaluates_time (hexact : m.steps.toNat + m.order.toNat < 2 ^ 53) (h : m.During T M) :
    M.Evaluates (.dim m.timeCounter) T := by
  have hbounded := h.bounded
  have hT : T.natAbs ≤ 2 ^ 53 := by split at hbounded <;> omega
  exact .dim hT h.time

omit [ExactIntegers R] in
/-- A level that a ring keeps is a time of the march or one of the start. -/
theorem level_bounded (h : m.During T M) {k : Int64} (hk : m.InRing k) :
    -(m.order.toNat : Int) ≤ T + k.toInt ∧ T + k.toInt < m.steps.toNat + m.order.toNat := by
  have hbounded := h.bounded
  rw [inRing_iff, Kept] at hk
  split at hk
  · rw [if_pos ‹_›] at hbounded
    omega
  · rw [if_neg ‹_›] at hbounded
    omega

omit [ExactIntegers R] in
theorem time_bounded (h : m.During T M) :
    -(m.order.toNat : Int) ≤ T ∧ T < (m.steps.toNat : Int) + m.order.toNat := by
  have hbounded := h.bounded
  split at hbounded <;> omega

/-- The index of a level evaluates to the row that the level is kept in. -/
theorem evaluates_row (hexact : m.steps.toNat + m.order.toNat < 2 ^ 53) (h : m.During T M)
    {ringed : Bool} (hringed : ringed → m.hasRing) {e : Expr} {k : Int64}
    (he : e.offset? = .ok (some (m.timeDim, k))) (hk : m.InRing k) :
    M.Evaluates ((m.levelIndex ringed e k).replace m.toCounters)
      (m.row ringed (T + k.toInt)) := by
  have hlevel := h.level_bounded hk
  have hkbound := hk.bounded
  cases ringed with
  | true =>
    have hslot := h.evaluates_slot (hringed rfl) hk
    simpa [levelIndex, row, (Expr.replace_eq_scalar m.toCounters_renamesAxes).2] using hslot
  | false =>
    have hoffset := Expr.offset?_replace m.toCounters_renamesAxes m.replace_timeDim he
    exact .offset hoffset (h.evaluates_time hexact) (by omega) (by omega)

end During

/-- The axes of the grid evaluate to the grid point of a step. -/
theorem At.evaluates [ExactIntegers R] {M : Machine R} {ds : List Dimension} {p : List Int64}
    (h : At M ds p) (hp : ∀ i ∈ p, i.toInt.natAbs ≤ 2 ^ 53) :
    List.Forall₂ (fun d i => M.Evaluates (.dim d) i.toInt) ds p := by
  induction h with
  | nil => exact .nil
  | @cons d i ds p hd _ ih =>
    have hi : M.indices[d.name]? = some (Int64.ofInt i.toInt) := by rwa [Int64.ofInt_toInt]
    exact .cons (.dim (hp i (by simp)) hi) (ih fun j hj => hp j (by simp [hj]))

/-- The indices of a grid point are exact. -/
theorem Specs.index_bounded (hgrid : ∀ extent ∈ specs.shape, extent.toNat < 2 ^ 53)
    {p : List Int64} (hp : p ∈ specs.points) : ∀ i ∈ p, i.toInt.natAbs ≤ 2 ^ 53 := by
  intro i hi
  obtain ⟨extent, hextent, hlow, hhigh⟩ := forall₂_mem_left ((Specs.mem_points hgrid).1 hp) hi
  have hexact := hgrid extent (List.mem_reverse.1 hextent)
  omega

end GridKernel.March
