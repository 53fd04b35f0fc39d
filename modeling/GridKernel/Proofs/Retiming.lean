import GridKernel.Proofs.Levels

/-! Retiming. Fitting an expression to the ring puts slots for the indices on the time axes of
ringed references, drops the indices past the axes of such a reference, and keeps everything
else. -/
namespace GridKernel.March

variable {m : March}

mutual

/-- The second expression is the first with the slots of the indices on the time axes of ringed
references. -/
def Retimed (m : March) : Expr → Expr → Prop
  | .access a es, f =>
    ∃ fs, f = .access a fs ∧ m.RetimedOn (if m.isRinged a.name then a.dims else []) es fs
  | .neg e, f => ∃ g, f = .neg g ∧ m.Retimed e g
  | .binary op l r, f => ∃ g h, f = .binary op g h ∧ m.Retimed l g ∧ m.Retimed r h
  | e, f => f = e
termination_by structural e => e

/-- The indices of one reference, each treated by the axis that it stands on. -/
def RetimedOn (m : March) (ds : List Dimension) : List Expr → List Expr → Prop
  | [], fs => fs = []
  | e :: es, fs => ∃ g gs, fs = g :: gs ∧
      (if ds.head?.any Dimension.isTime then m.slotAt e = .ok g else m.Retimed e g) ∧
      m.RetimedOn ds.tail es gs
termination_by structural es => es

end

mutual

/-- An expression without the indices past the axes of its ringed references. -/
def cropped (m : March) : Expr → Expr
  | .access a es =>
    .access a (if m.isRinged a.name then (m.croppedOn a.dims es).take a.rank
      else m.croppedOn [] es)
  | .neg e => .neg (m.cropped e)
  | .binary op l r => .binary op (m.cropped l) (m.cropped r)
  | e => e
termination_by structural e => e

def croppedOn (m : March) (ds : List Dimension) : List Expr → List Expr
  | [] => []
  | e :: es =>
    (if ds.head?.any Dimension.isTime then e else m.cropped e) :: m.croppedOn ds.tail es
termination_by structural es => es

end

mutual

/-- An expression fits the ring as the one that retimes it without its surplus indices. -/
theorem toSlots_eq_ok_iff : (e : Expr) → {f : Expr} →
    (m.toSlots e = .ok f ↔ m.Retimed (m.cropped e) f)
  | .access a es, f => by
    rw [toSlots, cropped, Retimed]
    split
    · rw [return_eq_ok, GridArray.rank]
      simp only [ringIndices_eq_ok_iff a.dims es]
    · rw [return_eq_ok]
      simp only [toSlotsAll_eq_ok_iff es]
  | .neg e, f => by
    rw [toSlots, cropped, Retimed, return_eq_ok]
    simp only [toSlots_eq_ok_iff e]
  | .binary op l r, f => by
    rw [toSlots, cropped, Retimed, both_eq_ok]
    simp only [toSlots_eq_ok_iff l, toSlots_eq_ok_iff r]
  | .int _, f | .float _, f | .symbol _, f | .scalar _, f | .dim _, f | .size _, f => by
    simp [toSlots, cropped, Retimed, eq_comm]
termination_by structural e => e

theorem toSlotsAll_eq_ok_iff : (es : List Expr) → {fs : List Expr} →
    (m.toSlotsAll es = .ok fs ↔ m.RetimedOn [] (m.croppedOn [] es) fs)
  | [], fs => by simp [toSlotsAll, croppedOn, RetimedOn, eq_comm]
  | e :: es, fs => by
    rw [toSlotsAll, croppedOn, RetimedOn, both_eq_ok]
    simp only [toSlots_eq_ok_iff e, toSlotsAll_eq_ok_iff es]
    rfl
termination_by structural es => es

theorem ringIndices_eq_ok_iff (ds : List Dimension) : (es : List Expr) → {fs : List Expr} →
    (m.ringIndices ds es = .ok fs ↔ m.RetimedOn ds ((m.croppedOn ds es).take ds.length) fs)
  | [], fs => by simp [ringIndices, croppedOn, RetimedOn, eq_comm]
  | e :: es, fs => by
    cases ds with
    | nil => simp [ringIndices, RetimedOn, eq_comm]
    | cons d ds =>
      rw [ringIndices, croppedOn, List.length_cons, List.take_succ_cons, RetimedOn, both_eq_ok]
      cases htime : d.isTime with
      | true => simp [htime, ringIndices_eq_ok_iff ds es]
      | false => simp [htime, toSlots_eq_ok_iff e, ringIndices_eq_ok_iff ds es]
termination_by structural es => es

end

/-- Every reference to a ringed array has a property. -/
def EveryRinged (m : March) (R : GridArray → List Expr → Prop) (e : Expr) : Prop :=
  ∀ a es, .access a es ∈ e.nodes → m.isRinged a.name → R a es

section EveryRinged

variable {R : GridArray → List Expr → Prop}

theorem everyRinged_of_flat {e : Expr} (h : Flat e) : m.EveryRinged R e :=
  fun a es ha _ => absurd rfl (h _ ha a es)

@[simp] theorem everyRinged_neg {e : Expr} :
    m.EveryRinged R (.neg e) ↔ m.EveryRinged R e := by
  simp [EveryRinged, Expr.nodes]

@[simp] theorem everyRinged_binary {op : BinaryOp} {l r : Expr} :
    m.EveryRinged R (.binary op l r) ↔ m.EveryRinged R l ∧ m.EveryRinged R r := by
  simp [EveryRinged, Expr.nodes, or_imp, forall_and]

@[simp] theorem everyRinged_access {a : GridArray} {es : List Expr} :
    m.EveryRinged R (.access a es) ↔
      (m.isRinged a.name → R a es) ∧ ∀ e ∈ es, m.EveryRinged R e := by
  constructor
  · intro h
    refine ⟨h a es (by simp [Expr.nodes]), fun e he b fs hb => ?_⟩
    exact h b fs (List.mem_cons_of_mem _ (Expr.mem_nodesAll.2 ⟨e, he, hb⟩))
  · rintro ⟨ha, hes⟩ b fs hb
    rcases List.mem_cons.1 hb with hb | hb
    · obtain ⟨rfl, rfl⟩ := Expr.access.inj hb
      exact ha
    · obtain ⟨e, he, hb⟩ := Expr.mem_nodesAll.1 hb
      exact hes e he b fs hb

end EveryRinged

/-- A reference has no index past the axes of its array. -/
def WithinAxes (a : GridArray) (es : List Expr) : Prop := es.length ≤ a.rank

theorem length_croppedOn {ds : List Dimension} {es : List Expr} :
    (m.croppedOn ds es).length = es.length := by
  induction es generalizing ds with
  | nil => rfl
  | cons e es ih => rw [croppedOn, List.length_cons, List.length_cons, ih]

theorem RetimedOn.length_eq {ds : List Dimension} {es fs : List Expr} (h : m.RetimedOn ds es fs) :
    fs.length = es.length := by
  induction es generalizing ds fs with
  | nil =>
    obtain rfl := h
    rfl
  | cons e es ih =>
    obtain ⟨g, gs, rfl, -, hgs⟩ := h
    rw [List.length_cons, List.length_cons, ih hgs]

/-- An index that has a slot refers to no array. -/
theorem flat_of_slotAt {e f : Expr} (h : m.slotAt e = .ok f) : Flat e := by
  obtain ⟨offset?, hoffset, h⟩ := bind_eq_ok.1 h
  cases offset? with
  | none => cases h
  | some p => exact flat_of_offset? hoffset

mutual

/-- An expression and the same without its surplus indices are retimed alike only where no index is
surplus. -/
theorem withinAxes_of_retimed : (e : Expr) → {f : Expr} → m.Retimed (m.cropped e) f →
    m.Retimed e f → m.EveryRinged WithinAxes e
  | .access a es, f, hcropped, h => by
    rw [cropped, Retimed] at hcropped
    rw [Retimed] at h
    obtain ⟨fs, rfl, hfs⟩ := hcropped
    obtain ⟨gs, hgs, h⟩ := h
    obtain ⟨-, rfl⟩ := Expr.access.inj hgs
    rw [everyRinged_access]
    cases hring : m.isRinged a.name with
    | true =>
      simp only [hring, if_true] at hfs h
      -- the two results have one length, that of the indices kept and that of all indices
      have hlength := hfs.length_eq
      rw [h.length_eq, List.length_take, length_croppedOn] at hlength
      have hwithin : WithinAxes a es := by
        unfold WithinAxes
        omega
      rw [List.take_of_length_le (by rwa [length_croppedOn])] at hfs
      exact ⟨fun _ => hwithin, withinAxes_of_retimedOn a.dims es hfs h⟩
    | false =>
      simp only [hring, Bool.false_eq_true, if_false] at hfs h
      exact ⟨nofun, withinAxes_of_retimedOn [] es hfs h⟩
  | .neg e, f, hcropped, h => by
    obtain ⟨g, rfl, hg⟩ := hcropped
    obtain ⟨g', hg', h⟩ := h
    obtain rfl := Expr.neg.inj hg'
    exact everyRinged_neg.2 (withinAxes_of_retimed e hg h)
  | .binary op l r, f, hcropped, h => by
    obtain ⟨l', r', rfl, hl, hr⟩ := hcropped
    obtain ⟨l'', r'', heq, hl', hr'⟩ := h
    obtain ⟨-, rfl, rfl⟩ := Expr.binary.inj heq
    exact everyRinged_binary.2 ⟨withinAxes_of_retimed l hl hl', withinAxes_of_retimed r hr hr'⟩
  | .int _, _, _, _ | .float _, _, _, _ | .symbol _, _, _, _ | .scalar _, _, _, _
  | .dim _, _, _, _ | .size _, _, _, _ => by
    simp [EveryRinged, Expr.nodes]
termination_by structural e => e

theorem withinAxes_of_retimedOn (ds : List Dimension) : (es : List Expr) → {fs : List Expr} →
    m.RetimedOn ds (m.croppedOn ds es) fs → m.RetimedOn ds es fs →
    ∀ e ∈ es, m.EveryRinged WithinAxes e
  | [], _, _, _ => nofun
  | e :: es, fs, hcropped, h => by
    rw [croppedOn, RetimedOn] at hcropped
    rw [RetimedOn] at h
    obtain ⟨g, gs, rfl, hg, hgs⟩ := hcropped
    obtain ⟨g', gs', heq, hg', hgs'⟩ := h
    obtain ⟨rfl, rfl⟩ := List.cons.inj heq
    refine List.forall_mem_cons.2 ⟨?_, withinAxes_of_retimedOn ds.tail es hgs hgs'⟩
    split at hg'
    · -- inside a time index nothing is retimed, but it holds no reference
      exact everyRinged_of_flat (flat_of_slotAt hg')
    · rename_i hspace
      rw [if_neg hspace, if_neg hspace] at hg
      exact withinAxes_of_retimed e hg hg'
termination_by structural es => es

end

mutual

theorem cropped_of_withinAxes : (e : Expr) → m.EveryRinged WithinAxes e → m.cropped e = e
  | .access a es, h => by
    obtain ⟨ha, hes⟩ := everyRinged_access.1 h
    rw [cropped]
    split
    · rename_i hring
      rw [croppedOn_of_withinAxes a.dims es hes, List.take_of_length_le (ha hring)]
    · rw [croppedOn_of_withinAxes [] es hes]
  | .neg e, h => by rw [cropped, cropped_of_withinAxes e (everyRinged_neg.1 h)]
  | .binary op l r, h => by
    obtain ⟨hl, hr⟩ := everyRinged_binary.1 h
    rw [cropped, cropped_of_withinAxes l hl, cropped_of_withinAxes r hr]
  | .int _, _ | .float _, _ | .symbol _, _ | .scalar _, _ | .dim _, _ | .size _, _ => rfl
termination_by structural e => e

theorem croppedOn_of_withinAxes (ds : List Dimension) : (es : List Expr) →
    (∀ e ∈ es, m.EveryRinged WithinAxes e) → m.croppedOn ds es = es
  | [], _ => rfl
  | e :: es, h => by
    obtain ⟨he, hes⟩ := List.forall_mem_cons.1 h
    rw [croppedOn, cropped_of_withinAxes e he, croppedOn_of_withinAxes ds.tail es hes, ite_self]
termination_by structural es => es

end

/-- Fitting an expression to the ring retimes it without the indices past the axes of its ringed
references. It is retimed as it stands exactly when there are none of these, and unchanged without a
ringed reference. -/
theorem toRing_eq_ok_iff (e f : Expr) :
    (m.toRing e = .ok f ↔ m.Retimed (m.cropped e) f) ∧
      (m.toRing e = .ok f → (m.Retimed e f ↔ m.EveryRinged WithinAxes e)) ∧
      (m.EveryRinged (fun _ _ => False) e → m.toRing e = .ok e) := by
  rw [toRing_eq]
  refine ⟨toSlots_eq_ok_iff e, fun h => ⟨fun hf => ?_, fun hwithin => ?_⟩, fun hnone => ?_⟩
  · exact withinAxes_of_retimed e ((toSlots_eq_ok_iff e).1 h) hf
  · have hretimed := (toSlots_eq_ok_iff e).1 h
    rwa [cropped_of_withinAxes e hwithin] at hretimed
  · exact toSlots_of_untimed e fun a es ha hring => (hnone a es ha hring).elim

/-- The current level of a ringed line with one index too many. -/
def surplusLevel (m : March) : Expr :=
  .access ringLine [.dim m.timeDim, .dim ⟨"x", .spatial⟩, .dim ⟨"x", .spatial⟩]

/-- A surplus index is dropped. -/
theorem toRing_eq_ok_iff_surplus :
    ∃ m f, Registered ringSpecs m ∧ m.toRing m.surplusLevel = .ok f ∧
      ¬ m.Retimed m.surplusLevel f := by
  obtain ⟨m, hm, hring, horder, -⟩ := exists_ring
  have hnow : (Expr.dim m.timeDim).offset? = .ok (some (m.timeDim, 0)) := rfl
  have hslot := slotAt_eq (by rw [horder]; decide) hnow m.inRing_zero
  have hf : m.toRing m.surplusLevel = .ok (.access ringLine
      [.scalar (slotScalar (m.slotIndex 0).toNat), .dim ⟨"x", .spatial⟩]) := by
    refine ((toRing_eq_ok_iff _ _).1).2 ⟨_, rfl, ?_⟩
    rw [if_pos hring, if_pos hring]
    exact ⟨_, _, rfl, hslot, _, _, rfl, rfl, rfl⟩
  refine ⟨m, _, hm, hf, fun hretimed => ?_⟩
  have hwithin := ((toRing_eq_ok_iff _ _).2.1 hf).1 hretimed
  have hlength : 3 ≤ 2 := (everyRinged_access.1 hwithin).1 hring
  omega

end GridKernel.March
