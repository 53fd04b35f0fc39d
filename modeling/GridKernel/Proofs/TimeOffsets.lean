import GridKernel.Proofs.Retiming

/-! Offsets from the current time. A time index at a constant offset is an exact integer away from
the current time. It becomes a slot when the ring keeps its level; another is refused where the
offset and its slot are signed words, and overflows where they are not. The first such index that
the ring does not keep decides how an expression fails. -/
namespace GridKernel

/-- Why a computation stopped, if it did. -/
def faultOf {α : Type} : Result α → Option Fault
  | .ok _ => none
  | .error fault => some fault

section FaultOf

variable {α β γ : Type}

theorem faultOf_eq_some {x : Result α} {fault : Fault} :
    faultOf x = some fault ↔ x = .error fault := by
  cases x <;> simp [faultOf]

theorem faultOf_eq_none {x : Result α} : faultOf x = none ↔ ∃ a, x = .ok a := by
  cases x <;> simp [faultOf]

theorem faultOf_map (x : Result α) (f : α → β) :
    faultOf (do return f (← x)) = faultOf x := by
  cases x <;> rfl

/-- Of two computations in a row the first that stops gives the fault. -/
theorem faultOf_both (x : Result α) (y : Result β) (f : α → β → γ) :
    faultOf (do return f (← x) (← y)) = (faultOf x).or (faultOf y) := by
  cases x with
  | error fault => rfl
  | ok a => cases y <;> rfl

end FaultOf

namespace March

variable {m : March}

mutual

/-- The indices on the time axes of ringed arrays, in the order in which they become slots. -/
def timeIndices (m : March) : Expr → List Expr
  | .access a es =>
    if m.isRinged a.name then m.timeIndicesOn a.dims es else m.timeIndicesAll es
  | .neg e => m.timeIndices e
  | .binary _ l r => m.timeIndices l ++ m.timeIndices r
  | _ => []
termination_by structural e => e

def timeIndicesAll (m : March) : List Expr → List Expr
  | [] => []
  | e :: es => m.timeIndices e ++ m.timeIndicesAll es
termination_by structural es => es

def timeIndicesOn (m : March) (dims : List Dimension) : List Expr → List Expr
  | [] => []
  | e :: es =>
    match dims with
    | [] => []
    | d :: ds => (if d.isTime then [e] else m.timeIndices e) ++ m.timeIndicesOn ds es
termination_by structural es => es

end

/-- The first fault of time indices. -/
def firstFault (m : March) (es : List Expr) : Option Fault :=
  es.findSome? fun e => faultOf (m.slotAt e)

theorem firstFault_append (es fs : List Expr) :
    m.firstFault (es ++ fs) = (m.firstFault es).or (m.firstFault fs) :=
  List.findSome?_append

mutual

/-- An expression fails with the first fault of its time indices. -/
theorem faultOf_toSlots : (e : Expr) → faultOf (m.toSlots e) = m.firstFault (m.timeIndices e)
  | .access a es => by
    rw [toSlots, timeIndices]
    split
    · rw [faultOf_map, faultOf_ringIndices]
    · rw [faultOf_map, faultOf_toSlotsAll]
  | .neg e => by rw [toSlots, timeIndices, faultOf_map, faultOf_toSlots e]
  | .binary op l r => by
    rw [toSlots, timeIndices, faultOf_both, firstFault_append, faultOf_toSlots l,
      faultOf_toSlots r]
  | .int _ | .float _ | .symbol _ | .scalar _ | .dim _ | .size _ => rfl
termination_by structural e => e

theorem faultOf_toSlotsAll : (es : List Expr) →
    faultOf (m.toSlotsAll es) = m.firstFault (m.timeIndicesAll es)
  | [] => rfl
  | e :: es => by
    rw [toSlotsAll, timeIndicesAll, faultOf_both, firstFault_append, faultOf_toSlots e,
      faultOf_toSlotsAll es]
termination_by structural es => es

theorem faultOf_ringIndices (dims : List Dimension) : (es : List Expr) →
    faultOf (m.ringIndices dims es) = m.firstFault (m.timeIndicesOn dims es)
  | [] => rfl
  | e :: es => by
    cases dims with
    | nil => rfl
    | cons d ds =>
      rw [ringIndices, timeIndicesOn, faultOf_both, firstFault_append, faultOf_ringIndices ds es]
      split
      · simp [firstFault]
      · rw [faultOf_toSlots e]
termination_by structural es => es

end

/-- An index at a constant offset from the current time. -/
inductive AtOffset (m : March) : Expr → Int → Prop where
  | now : m.AtOffset (.dim m.timeDim) 0
  | plus (k : Int64) : m.AtOffset (.binary .add (.dim m.timeDim) (.int k)) k.toInt
  | onto (k : Int64) : m.AtOffset (.binary .add (.int k) (.dim m.timeDim)) k.toInt
  | minus (k : Int64) : m.AtOffset (.binary .sub (.dim m.timeDim) (.int k)) (-k.toInt)

/-- An index at an offset is read as one where the offset is a signed word. -/
theorem AtOffset.offset? {e : Expr} {o : Int} (h : m.AtOffset e o) :
    e.offset? = do return some (m.timeDim, ← Word.int o) := by
  cases h with
  | now => rfl
  | plus k => rw [Word.int_toInt]; rfl
  | onto k => rw [Word.int_toInt]; rfl
  | minus k => rfl

/-- An index at an offset that the ring keeps becomes its slot; any other one fails. -/
theorem slotAt_of_atOffset (horder : m.order.toNat < 2 ^ 62) {e : Expr} {o : Int}
    (h : m.AtOffset e o) :
    m.slotAt e = if m.Kept o then .ok (.scalar (slotScalar (m.slotNumber o).toNat))
      else .error (m.offRing o) := by
  have hread := h.offset?
  -- an offset that is no word is far outside the ring
  by_cases hoffset : Word.Fits o
  · obtain ⟨w, hw, rfl⟩ := Word.exists_int hoffset
    rw [hw] at hread
    exact slotAt_of_offset? horder hread
  · have hnot : ¬ m.Kept o := by
      intro hkept
      have hbounded := hkept.bounded
      unfold Word.Fits at hoffset
      omega
    rw [slotAt, hread, Word.int_overflows.2 hoffset, if_neg hnot, offRing,
      if_neg fun h => hoffset h.1]
    rfl

/-- A reference has one index for each axis, with a property on the time axes. -/
def OnTimes (P : Expr → Prop) (a : GridArray) (es : List Expr) : Prop :=
  List.Forall₂ (fun d x => d.isTime → P x) a.dims es

variable {P Q : Expr → Prop}

mutual

/-- Where no index on a time axis refers to an array, the time indices of an expression are those of
its references. -/
theorem timeIndices_iff (hflat : ∀ x, Q x → Flat x) : (e : Expr) → m.EveryRinged (OnTimes Q) e →
    ((∀ x ∈ m.timeIndices e, P x) ↔ m.EveryRinged (OnTimes P) e)
  | .access a es, h => by
    obtain ⟨ha, hes⟩ := everyRinged_access.1 h
    rw [timeIndices, everyRinged_access]
    split
    · rename_i hring
      rw [timeIndicesOn_iff hflat a.dims es (ha hring) hes]
      simp [hring, OnTimes]
    · rename_i hring
      rw [timeIndicesAll_iff hflat es hes]
      simp [hring]
  | .neg e, h => by
    rw [timeIndices, everyRinged_neg, timeIndices_iff hflat e (everyRinged_neg.1 h)]
  | .binary op l r, h => by
    obtain ⟨hl, hr⟩ := everyRinged_binary.1 h
    simp only [timeIndices, everyRinged_binary, List.mem_append, or_imp, forall_and,
      timeIndices_iff hflat l hl, timeIndices_iff hflat r hr]
  | .int _, _ | .float _, _ | .symbol _, _ | .scalar _, _ | .dim _, _ | .size _, _ => by
    simp [timeIndices, EveryRinged, Expr.nodes]
termination_by structural e => e

theorem timeIndicesAll_iff (hflat : ∀ x, Q x → Flat x) : (es : List Expr) →
    (∀ e ∈ es, m.EveryRinged (OnTimes Q) e) →
    ((∀ x ∈ m.timeIndicesAll es, P x) ↔ ∀ e ∈ es, m.EveryRinged (OnTimes P) e)
  | [], _ => by simp [timeIndicesAll]
  | e :: es, h => by
    simp only [List.forall_mem_cons] at h ⊢
    simp only [timeIndicesAll, List.mem_append, or_imp, forall_and,
      timeIndices_iff hflat e h.1, timeIndicesAll_iff hflat es h.2]
termination_by structural es => es

theorem timeIndicesOn_iff (hflat : ∀ x, Q x → Flat x) (ds : List Dimension) :
    (es : List Expr) → List.Forall₂ (fun d x => d.isTime → Q x) ds es →
    (∀ e ∈ es, m.EveryRinged (OnTimes Q) e) →
    ((∀ x ∈ m.timeIndicesOn ds es, P x) ↔
      List.Forall₂ (fun d x => d.isTime → P x) ds es ∧ ∀ e ∈ es, m.EveryRinged (OnTimes P) e)
  | [], hds, _ => by
    cases hds
    simp [timeIndicesOn]
  | e :: es, hds, h => by
    cases hds with
    | @cons d _ ds _ hd hds =>
      simp only [List.forall_mem_cons] at h ⊢
      simp only [timeIndicesOn, List.mem_append, or_imp, forall_and, List.forall₂_cons,
        timeIndicesOn_iff hflat ds es hds h.2]
      cases htime : d.isTime with
      | true =>
        have he : m.EveryRinged (OnTimes P) e := everyRinged_of_flat (hflat e (hd htime))
        simp [he, and_assoc]
      | false =>
        simp only [Bool.false_eq_true, if_false, timeIndices_iff hflat e h.1]
        tauto
termination_by structural es => es

end

/-- An index at an offset refers to no array. -/
theorem AtOffset.flat {e : Expr} {o : Int} (h : m.AtOffset e o) : Flat e := by
  cases h with
  | now => exact .dim _
  | plus k => exact .binary _ (.dim _) (.int k)
  | onto k => exact .binary _ (.int k) (.dim _)
  | minus k => exact .binary _ (.dim _) (.int k)

theorem AtOffset.unique {e : Expr} {o p : Int} (ho : m.AtOffset e o) (hp : m.AtOffset e p) :
    o = p := by
  cases ho <;> cases hp <;> rfl

/-- Time indices fail with the first one that the ring does not keep. -/
theorem firstFault_of_offsets (horder : m.order.toNat < 2 ^ 62) {es : List Expr} {os : List Int}
    (h : List.Forall₂ m.AtOffset es os) :
    m.firstFault es = os.findSome? fun o => if m.Kept o then none else some (m.offRing o) := by
  induction h with
  | nil => rfl
  | @cons e o es os ho _ ih =>
    have hslot := slotAt_of_atOffset horder ho
    rw [firstFault, List.findSome?_cons, List.findSome?_cons, hslot, ← ih]
    by_cases hkept : m.Kept o
    · simp only [if_pos hkept]
      rfl
    · simp only [if_neg hkept]
      rfl

/-- An expression whose references stand at offsets from the current time fits the ring exactly when
the ring keeps every offset. Otherwise the first offset that it does not keep decides the fault: it
is refused where it and its slot are signed words, and overflows where one of them is not. -/
theorem toRing_of_offsets (horder : m.order.toNat < 2 ^ 62) {e : Expr}
    (h : m.EveryRinged (OnTimes fun x => ∃ o, m.AtOffset x o) e) :
    ∃ offsets, List.Forall₂ m.AtOffset (m.timeIndices e) offsets ∧
      ((∃ f, m.toRing e = .ok f) ↔
        m.EveryRinged (OnTimes fun x => ∃ o, m.AtOffset x o ∧ m.Kept o) e) ∧
      ∀ fault, m.toRing e = .error fault ↔ ∃ before o after, offsets = before ++ o :: after ∧
        (∀ p ∈ before, m.Kept p) ∧ ¬ m.Kept o ∧ fault = m.offRing o := by
  have hflat : ∀ x, (∃ o, m.AtOffset x o) → Flat x := fun x ⟨_, ho⟩ => ho.flat
  have hall : ∀ x ∈ m.timeIndices e, ∃ o, m.AtOffset x o := (timeIndices_iff hflat e h).2 h
  obtain ⟨offsets, hoffsets⟩ := exists_forall₂ hall
  have hfault : faultOf (m.toRing e) =
      offsets.findSome? fun o => if m.Kept o then none else some (m.offRing o) := by
    rw [toRing_eq, faultOf_toSlots, firstFault_of_offsets horder hoffsets]
  refine ⟨offsets, hoffsets, ?_, fun fault => ?_⟩
  · rw [← faultOf_eq_none, hfault, List.findSome?_eq_none_iff, ← timeIndices_iff hflat e h]
    simp only [ite_eq_left_iff, reduceCtorEq, imp_false, not_not]
    constructor
    · intro hkept x hx
      obtain ⟨o, ho, hxo⟩ := forall₂_mem_left hoffsets hx
      exact ⟨o, hxo, hkept o ho⟩
    · intro hkept o ho
      obtain ⟨x, hx, hxo⟩ := forall₂_mem_right hoffsets ho
      obtain ⟨p, hxp, hp⟩ := hkept x hx
      rwa [hxo.unique hxp]
  · rw [← faultOf_eq_some, hfault, List.findSome?_eq_some_iff]
    simp only [ite_eq_left_iff, reduceCtorEq, imp_false, not_not, ite_eq_iff, false_or,
      and_false, Option.some.injEq]
    constructor
    · rintro ⟨before, o, after, rfl, ⟨hnot, hfault⟩, hbefore⟩
      exact ⟨before, o, after, rfl, hbefore, hnot, hfault.symm⟩
    · rintro ⟨before, o, after, rfl, hbefore, hnot, rfl⟩
      exact ⟨before, o, after, rfl, ⟨hnot, rfl⟩, hbefore⟩

/-- The furthest level ahead that an index names. -/
def furthest (m : March) : Expr := .binary .add (.dim m.timeDim) (.int Int64.maxValue)

theorem atOffset_furthest : m.AtOffset m.furthest Int64.maxValue.toInt := .plus _

def furthestLevel (m : March) : Expr := .access ringLine [m.furthest, .dim ⟨"x", .spatial⟩]

theorem furthestLevel_atOffset :
    m.EveryRinged (OnTimes fun x => ∃ o, m.AtOffset x o) m.furthestLevel := by
  refine everyRinged_access.2 ⟨fun _ => ?_, ?_⟩
  · exact .cons (fun _ => ⟨_, atOffset_furthest⟩) (.cons (fun h => absurd h (by decide)) .nil)
  · simp only [List.forall_mem_cons]
    exact ⟨everyRinged_of_flat atOffset_furthest.flat, everyRinged_of_flat (.dim _),
      List.forall_mem_nil _⟩

/-- The slot of the furthest level is not a signed word. -/
theorem toRing_of_offsets_furthest :
    ∃ m, Registered ringSpecs m ∧
      m.EveryRinged (OnTimes fun x => ∃ o, m.AtOffset x o) m.furthestLevel ∧
      m.toRing m.furthestLevel = .error .overflow := by
  obtain ⟨m, hm, hring, horder, hforward⟩ := exists_ring
  have hword : m.order.toNat < 2 ^ 62 := by
    rw [horder]
    decide
  obtain ⟨offsets, hoffsets, -, hfault⟩ := toRing_of_offsets hword furthestLevel_atOffset
  have hindices : m.timeIndices m.furthestLevel = [m.furthest] := by
    rw [furthestLevel, timeIndices, if_pos hring]
    rfl
  rw [hindices] at hoffsets
  obtain ⟨o, _, ho, hnil, rfl⟩ := List.forall₂_cons_left_iff.1 hoffsets
  cases hnil
  obtain rfl := ho.unique atOffset_furthest
  have hnot : ¬ m.Kept Int64.maxValue.toInt := by
    rw [Kept, if_pos hforward, horder]
    decide
  have hover : m.offRing Int64.maxValue.toInt = .overflow := by
    rw [offRing, slotNumber, if_pos hforward, horder]
    exact if_neg (by decide)
  exact ⟨m, hm, furthestLevel_atOffset, (hfault _).2 ⟨[], _, [], rfl, List.forall_mem_nil _, hnot,
    hover.symm⟩⟩

end March

end GridKernel
