import GridKernel.Proofs.PointStatements
import GridKernel.Proofs.Templates

/-! Places of grid points. A reference at the axes themselves is resolved to the place of the
current point at the current time, and one at an offset from the time to a row of another time. -/
namespace GridKernel.March

open Machine

variable {m : March} {specs : Specs}

/-- A reference in a resolved expression is a reference of the expression, resolved. -/
theorem access_of_resolveExpr {e e' : Expr} (h : m.resolveExpr e = .ok e') {b : GridArray}
    {gs : List Expr} (hx : .access b gs ∈ e'.nodes) :
    ∃ fs slotted, .access b fs ∈ e.nodes ∧
      m.slotIndices (m.isRinged b.name) b.dims fs = .ok slotted ∧
      gs = Expr.replaceAll m.toCounters slotted := by
  have hr := m.toCounters_renamesAxes
  rw [resolveExpr_eq] at h
  obtain ⟨f, hf, h⟩ := bind_eq_ok.1 h
  obtain rfl := Except.ok.inj h
  rw [Expr.nodes_replace hr] at hx
  obtain ⟨y, hy, hyx⟩ := List.mem_map.1 hx
  -- only references are replaced by references, and only they get slots
  obtain ⟨fs', rfl, rfl⟩ : ∃ fs', y = .access b fs' ∧ gs = Expr.replaceAll m.toCounters fs' := by
    cases y with
    | access a fs' =>
      rw [Expr.replace_access hr] at hyx
      obtain ⟨rfl, rfl⟩ := Expr.access.inj hyx
      exact ⟨fs', rfl, rfl⟩
    | neg y => simp [Expr.replace_neg hr] at hyx
    | binary op l r => simp [Expr.replace_binary hr] at hyx
    | dim d =>
      obtain ⟨c, hc⟩ := Expr.replace_dim hr d
      rw [hc] at hyx
      cases hyx
    | _ => simp [Expr.replace, Expr.find?_eq_none hr] at hyx
  rcases node_of_toSlots e hf hy with ⟨j, -, hslot⟩ | ⟨x, hxe, hslots⟩
  · cases hslot
  · cases x with
    | access a fs =>
      rw [toSlots_access] at hslots
      obtain ⟨slotted, hslotted, hslots⟩ := bind_eq_ok.1 hslots
      obtain ⟨rfl, rfl⟩ := Expr.access.inj (Except.ok.inj hslots)
      exact ⟨fs, slotted, hxe, hslotted, rfl⟩
    | neg e =>
      obtain ⟨f, -, hslots⟩ := bind_eq_ok.1 hslots
      cases hslots
    | binary op l r =>
      obtain ⟨l', -, hslots⟩ := bind_eq_ok.1 hslots
      obtain ⟨r', -, hslots⟩ := bind_eq_ok.1 hslots
      cases hslots
    | _ => cases hslots

/-- The axes of an array with or without time. -/
def axes (m : March) (timed : Bool) : List Dimension :=
  if timed then m.timeDim :: m.spaceDims else m.spaceDims

/-- A reference to an array at its axes themselves: at the current point, and time if it has one. -/
structure Here (m : March) (timed : Bool) (a : GridArray) (es : List Expr) : Prop where
  dims : a.dims = m.axes timed
  indices : List.Forall₂ (fun e d => e.offset? = .ok (some (d, 0))) es (m.axes timed)

/-- A reference to an array at another time than the current one. Where all levels are saved, the
time is an exact index. -/
inductive Elsewhen (m : March) (a : GridArray) : List Expr → Prop where
  | offset {e : Expr} {k : Int64} {es : List Expr} (hdims : a.dims = m.axes true)
    (he : e.offset? = .ok (some (m.timeDim, k))) (hk : k ≠ 0)
    (hexact : m.isRinged a.name = false → k.toInt.natAbs ≤ 2 ^ 53 ∧
      ∀ T ∈ m.times, (T + k.toInt).natAbs ≤ 2 ^ 53) : Elsewhen m a (e :: es)

/-- The multi-index of a grid point at a time in an array. -/
def place (m : March) (timed : Bool) (name : String) (T : Int) (p : List Int64) : List Int64 :=
  if timed then Int64.ofInt (m.row (m.isRinged name) T) :: p else p

/-- What a reference at a grid point may find in a written array: the place of the point, or the
rows of other times. -/
def Sees (m : March) (timed : Bool) (name : String) (T : Int) (p is : List Int64) : Prop :=
  is = m.place timed name T p ∨
    timed ∧ ∃ j js, is = j :: js ∧ j ≠ Int64.ofInt (m.row (m.isRinged name) T)

theorem place_inj {timed : Bool} {name : String} {T : Int} {p q : List Int64}
    (h : m.place timed name T p = m.place timed name T q) : p = q := by
  unfold place at h
  split at h
  · exact (List.cons.inj h).2
  · exact h

/-- No reference at a grid point finds the place of another point at the same time. -/
theorem Sees.eq {timed : Bool} {name : String} {T : Int} {p q : List Int64}
    (h : m.Sees timed name T p (m.place timed name T q)) : q = p := by
  rcases h with h | ⟨htimed, j, js, hplace, hrow⟩
  · exact place_inj h
  · rw [place, if_pos htimed] at hplace
    exact absurd (List.cons.inj hplace).1.symm hrow

theorem toSlotsAll_here {es : List Expr} {ds : List Dimension}
    (h : List.Forall₂ (fun e d => e.offset? = .ok (some (d, 0))) es ds) :
    m.toSlotsAll es = .ok es := by
  apply toSlotsAll_of_flat
  intro e he
  obtain ⟨d, -, hoffset⟩ := forall₂_mem_left h he
  exact flat_of_offset? hoffset

/-- A level that a ring keeps at another time is of an earlier step. -/
theorem InRing.past {k : Int64} (hk : m.InRing k) (hne : k ≠ 0) : m.Past 0 k.toInt := by
  have hnonzero : k.toInt ≠ 0 := by
    have hzero : (0 : Int64).toInt = 0 := rfl
    rw [← hzero, ne_eq, Int64.toInt_inj]
    exact hne
  rw [inRing_iff, Kept] at hk
  unfold Past
  split at hk
  · rw [if_pos ‹_›]
    omega
  · rw [if_neg ‹_›]
    omega

variable {R : Type} [Arithmetic R] [ExactIntegers R] {a : GridArray} {es : List Expr} {T : Int}
  {p : List Int64} {M : Machine R}

section Resolved

variable (hm : Configured specs m) (hexact : m.steps.toNat + m.order.toNat < 2 ^ 53)
include hm hexact

omit hexact in
theorem evalIndices_here (hgrid : ∀ extent ∈ specs.shape, extent.toNat < 2 ^ 53)
    (h : List.Forall₂ (fun e d => e.offset? = .ok (some (d, 0))) es m.spaceDims)
    (hp : p ∈ specs.points) (hat : At M m.spaceCounters p) :
    M.evalIndices (Expr.replaceAll m.toCounters es) = .ok p := by
  rw [Expr.replaceAll_eq_map, evalIndices_eq_ok, List.forall₂_map_left_iff]
  have hcounters := forall₂_trans (replace_spaceDims hm)
    (hat.evaluates (Specs.index_bounded hgrid hp))
  refine ((forall₂_trans h hcounters).imp ?_)
  rintro e i ⟨d, hoffset, c, hc, hi⟩
  have hreplaced := Expr.offset?_replace m.toCounters_renamesAxes hc hoffset
  have hzero : (0 : Int64).toInt = 0 := rfl
  have hbounded := hi.bounded
  have hvalue := Evaluates.offset hreplaced hi (by decide) (by omega)
  rw [hvalue.evalIndex, hzero, Int.add_zero, Int64.ofInt_toInt]

/-- A reference at the axes themselves is resolved to the place of the current point. -/
theorem Here.evaluates (hgrid : ∀ extent ∈ specs.shape, extent.toNat < 2 ^ 53) {timed : Bool}
    (h : m.Here timed a es) {slotted : List Expr}
    (hslots : m.slotIndices (m.isRinged a.name) a.dims es = .ok slotted)
    (hduring : m.During T M) (hp : p ∈ specs.points) (hat : At M m.spaceCounters p) :
    M.evalIndices (Expr.replaceAll m.toCounters slotted) = .ok (m.place timed a.name T p) := by
  obtain ⟨hdims, hes⟩ := h
  have hspatial := isTime_spaceDims hm
  rw [hdims] at hslots
  cases timed with
  | false =>
    simp only [axes, Bool.false_eq_true, if_false] at hes hslots
    rw [slotIndices_spatial _ hspatial hes.length_eq, toSlotsAll_here hes] at hslots
    obtain rfl := Except.ok.inj hslots
    exact evalIndices_here hm hgrid hes hp hat
  | true =>
    simp only [axes, if_true] at hes hslots
    cases hes with
    | @cons e _ es _ htime hes =>
      rw [slotIndices_timed hm (by omega) _ m.spaceDims htime m.inRing_zero,
        slotIndices_spatial _ hspatial hes.length_eq, toSlotsAll_here hes] at hslots
      obtain rfl := Except.ok.inj hslots
      have hring : m.isRinged a.name = true → m.hasRing := hasRing_of_isRinged
      have hrow := hduring.evaluates_row hexact hring htime m.inRing_zero
      have hzero : (0 : Int64).toInt = 0 := rfl
      rw [hzero, Int.add_zero] at hrow
      exact (evalIndices_cons hrow).2 ⟨p, rfl, evalIndices_here hm hgrid hes hp hat⟩

/-- A reference at another time is resolved to another row than that of the current time. -/
theorem Elsewhen.evaluates (h : m.Elsewhen a es) {slotted : List Expr}
    (hslots : m.slotIndices (m.isRinged a.name) a.dims es = .ok slotted) (hT : T ∈ m.times)
    (hduring : m.During T M) {is : List Int64}
    (his : M.evalIndices (Expr.replaceAll m.toCounters slotted) = .ok is) :
    ∃ j js, is = j :: js ∧ j ≠ Int64.ofInt (m.row (m.isRinged a.name) T) := by
  obtain @⟨e, k, es, hdims, htime, hk, hsaved⟩ := h
  rw [hdims, axes, if_pos rfl] at hslots
  have hbounded := hduring.time_bounded
  cases hringed : m.isRinged a.name with
  | true =>
    have hkept : m.InRing k := by
      rw [slotIndices, if_pos hringed, ringIndices, isTime_timeDim hm] at hslots
      obtain ⟨f, hf, -⟩ := bind_eq_ok.1 hslots
      exact inRing_of_slotAt (by omega) htime hf
    rw [slotIndices_timed hm (by omega) _ m.spaceDims htime hkept] at hslots
    obtain ⟨rest, -, hslots⟩ := bind_eq_ok.1 hslots
    obtain rfl := Except.ok.inj hslots
    have hring : m.isRinged a.name = true → m.hasRing := hasRing_of_isRinged
    have hrow := hduring.evaluates_row hexact hring htime hkept
    obtain ⟨js, rfl, -⟩ := (evalIndices_cons hrow).1 his
    have hpast := (hkept.past hk).add T
    refine ⟨_, js, rfl, fun heq => hpast.row_ne true ?_⟩
    rw [hringed] at heq
    exact ofInt_inj (row_bounded true hexact (hduring.past_bounded hpast))
      (row_bounded true hexact hbounded) heq
  | false =>
    obtain ⟨hoffset, hsum⟩ := hsaved hringed
    rw [slotIndices, hringed, if_neg (by simp), toSlotsAll,
      toSlots_of_flat e (flat_of_offset? htime), ok_bind] at hslots
    obtain ⟨rest, -, hslots⟩ := bind_eq_ok.1 hslots
    obtain rfl := Except.ok.inj hslots
    have hreplaced := Expr.offset?_replace m.toCounters_renamesAxes m.replace_timeDim htime
    have hrow := Evaluates.offset hreplaced (hduring.evaluates_time hexact) hoffset (hsum T hT)
    obtain ⟨js, rfl, -⟩ := (evalIndices_cons hrow).1 his
    refine ⟨_, js, rfl, fun heq => hk ?_⟩
    have hrows : T + k.toInt = m.row false T := ofInt_inj (hsum T hT)
      (row_bounded false hexact hbounded) heq
    have hzero : k.toInt = (0 : Int64).toInt := by
      have hnone : (0 : Int64).toInt = 0 := rfl
      rw [row, if_neg (by simp)] at hrows
      omega
    exact Int64.toInt_inj.1 hzero

end Resolved

end GridKernel.March
