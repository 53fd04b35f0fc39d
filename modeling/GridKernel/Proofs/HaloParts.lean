import GridKernel.Proofs.HaloBuild

/-! The parts of a halo exchange. Whatever array is exchanged and whichever rule sizes the buffers,
a kernel that was built views the array and all buffers, and moves each side under its mask. -/
namespace GridKernel.Halo

variable {a : GridArray} {rule : WidthRule} {slot : String} {axes : List Axis} {x : Axis}
  {side : Side} {t : Transfer} {classes : List AxisClass} {direction : Direction}

theorem span_left_eq_ok {name : String} {d : Dimension} {halo : Extent} {width : UInt64}
    {size receive send : Expr} :
    span name d .left halo width size = .ok (receive, send) ↔
      width ≤ halo.left ∧ receive = .ofSize (halo.left - width) ∧ send = .ofSize halo.left := by
  simp only [span]
  split
  next hlt => exact ⟨nofun, fun h => absurd h.1 (UInt64.not_le.2 hlt)⟩
  next hle =>
    rw [Except.ok.injEq, Prod.mk.injEq, eq_comm, eq_comm (a := Expr.ofSize halo.left)]
    exact (and_iff_right (UInt64.not_lt.1 hle)).symm

theorem span_right_eq_ok {name : String} {d : Dimension} {halo : Extent} {width : UInt64}
    {size receive send : Expr} :
    span name d .right halo width size = .ok (receive, send) ↔
      width ≤ halo.right ∧ (Expr.ofSize halo.left).add size = .ok receive ∧
        receive.sub (.ofSize width) = .ok send := by
  simp only [span]
  split
  next hlt => exact ⟨nofun, fun h => absurd h.1 (UInt64.not_le.2 hlt)⟩
  next hle =>
    rw [and_iff_right (UInt64.not_lt.1 hle)]
    constructor
    · intro h
      obtain ⟨stop, hstop, h⟩ := bind_eq_ok.1 h
      obtain ⟨start, hstart, h⟩ := bind_eq_ok.1 h
      obtain ⟨rfl, rfl⟩ := Prod.mk.inj (Except.ok.inj h)
      exact ⟨hstop, hstart⟩
    · rintro ⟨hreceive, hsend⟩
      rw [hreceive, ok_bind, hsend]
      rfl

/-- The axes of a transfer along the axes of the array, with the offsets of its side. -/
structure Lined (a : GridArray) (rule : WidthRule) (slot : String) (axes : List Axis) (x : Axis)
    (side : Side) (t : Transfer) (halo : Extent) (size receive send : Expr)
    (inner : List BufferAxis) : Prop where
  halo_at : a.halo[x.position]? = some halo
  shape_at : a.shape[x.position]? = some size
  spanned : span a.name x.dim side halo (rule.width side halo) size = .ok (receive, send)
  lined : List.Forall₂ (fun y b => bufferAxis a y (y.position == x.position)
    (rule.width side halo) receive send = .ok b) axes inner
  distinct : (slot :: inner.map fun b => b.dim.name).Nodup
  buffer : t.buffer =
    let dims := ⟨slot, .sized (.int 2)⟩ :: inner.map BufferAxis.dim
    ⟨x.names.buffers side, a.element, dims, dims.map Dimension.extent,
      .none :: inner.map BufferAxis.halo, .external⟩
  receives : t.receive = inner.map BufferAxis.receive
  sends : t.send = inner.map BufferAxis.send

theorem of_sized_eq_ok {name : String} {size : Expr} {d : Dimension}
    (h : Dimension.sized name size = .ok d) : d = ⟨name, .sized size⟩ := by
  unfold Dimension.sized at h
  obtain ⟨n, hn, hd⟩ := bind_eq_ok.1 h
  rw [← Except.ok.inj hd, (Identifier.isValid_of_check hn).2]

theorem exists_lined (h : transfer a rule slot axes x side = .ok t) :
    ∃ halo size receive send inner,
      Lined a rule slot axes x side t halo size receive send inner := by
  unfold transfer at h
  obtain ⟨halo, hhalo, h⟩ := bind_eq_ok.1 h
  obtain ⟨size, hsize, h⟩ := bind_eq_ok.1 h
  obtain ⟨⟨receive, send⟩, hspan, h⟩ := bind_eq_ok.1 h
  obtain ⟨slotDim, hslot, h⟩ := bind_eq_ok.1 h
  obtain ⟨inner, hinner, h⟩ := bind_eq_ok.1 h
  obtain ⟨b, hb, h⟩ := bind_eq_ok.1 h
  obtain ⟨b', hb', h⟩ := bind_eq_ok.1 h
  obtain rfl := of_sized_eq_ok hslot
  obtain ⟨hdistinct, rfl⟩ := GridArray.named_eq_ok hb
  rw [GridArray.setHalo_eq (by simp [GridArray.rank])] at hb'
  obtain rfl := Except.ok.inj hb'
  obtain rfl := Except.ok.inj h
  refine ⟨halo, size, receive, send, inner, entryAt_eq_ok.1 hhalo, entryAt_eq_ok.1 hsize, hspan,
    mapM_eq_ok.1 hinner, ?_, rfl, rfl, rfl⟩
  rwa [List.map_cons, List.map_map] at hdistinct

section Lined

variable {halo : Extent} {size receive send : Expr} {inner : List BufferAxis} {y : Axis}

/-- The axis of a buffer along an axis of the array. -/
theorem axis_at (hnamed : Named a classes slot axes)
    (hlined : Lined a rule slot axes x side t halo size receive send inner) (hy : y ∈ axes) :
    ∃ b, inner[y.position]? = some b ∧
      bufferAxis a y (y.position == x.position) (rule.width side halo) receive send = .ok b := by
  obtain ⟨i, hi⟩ := List.getElem?_of_mem hy
  rw [hnamed.position i y hi]
  have hb := forall₂_getElem? hlined.lined hi
  rwa [hnamed.position i y hi] at hb

theorem allocated_inner (hlined : Lined a rule slot axes x side t halo size receive send inner)
    {i : Nat} {d : Dimension} {e f : Expr} (hinner : inner[i]? = some ⟨d, .none, e, f⟩) :
    t.buffer.allocated (i + 1) = .ok d.extent := by
  apply GridArray.allocated_bare
  · simp [hlined.buffer, hinner]
  · simp [hlined.buffer, hinner]

theorem allocated_slots (hlined : Lined a rule slot axes x side t halo size receive send inner) :
    t.buffer.allocated 0 = .ok (.int 2) := by
  apply GridArray.allocated_bare
  · simp [hlined.buffer]
  · simp [hlined.buffer, Dimension.extent]

/-- Along a pinned axis a buffer has one cell. -/
theorem allocated_pinned (hnamed : Named a classes slot axes)
    (hlined : Lined a rule slot axes x side t halo size receive send inner) (hy : y ∈ axes)
    (hpinned : y.cls.isPinned = true) : t.buffer.allocated (y.position + 1) = .ok (.int 1) := by
  obtain ⟨b, hinner, hb⟩ := axis_at hnamed hlined hy
  unfold bufferAxis at hb
  cases hcls : y.cls with
  | free => simp [hcls, AxisClass.isPinned] at hpinned
  | pinned index =>
    rw [hcls] at hb
    obtain ⟨d, hd, hb⟩ := bind_eq_ok.1 hb
    obtain rfl := of_sized_eq_ok hd
    obtain rfl := Except.ok.inj hb
    exact allocated_inner hlined hinner

end Lined

/-- The assignment of one cell between an array and a transfer buffer. -/
def cellOf (a : GridArray) (t : Transfer) (direction : Direction)
    (lines : List (Expr × Expr × Option LoopHead)) : Stmt :=
  let buffered := Expr.access t.buffer (.int direction.slot :: lines.map (·.1))
  let owned := Expr.access a (lines.map (·.2.1))
  match direction with
  | .pack => .assign buffered owned
  | .unpack => .assign owned buffered

theorem exists_lines {c : Stmt} (h : move a classes t direction = .ok c) :
    ∃ lines, List.Forall₂ (fun p l => moveAxis t direction p.2 p.1 = .ok l) classes.zipIdx lines ∧
      c = (cellOf a t direction lines).nest (lines.reverse.filterMap (·.2.2)) := by
  unfold move at h
  obtain ⟨lines, hlines, h⟩ := bind_eq_ok.1 h
  refine ⟨lines, mapM_eq_ok.1 hlines, ?_⟩
  rw [← Except.ok.inj h]
  cases direction <;> rfl

/-- The move of a side under its mask. -/
def Guards (a : GridArray) (rule : WidthRule) (classes : List AxisClass) (slot : String)
    (axes : List Axis) (direction : Direction) (p : Axis × Side) (s : Stmt) : Prop :=
  ∃ t c, transfer a rule slot axes p.1 p.2 = .ok t ∧ move a classes t direction = .ok c ∧
    s = .when (.scalar ⟨p.1.names.masks p.2, .int32⟩) c

/-- What an exchange consists of. -/
structure Parts (a : GridArray) (pins : Pins) (rule : WidthRule) (classes : List AxisClass)
    (slot : String) (axes : List Axis) (e : Exchange) : Prop where
  split : splitAxes a.dims pins = .ok classes
  named : Named a classes slot axes
  buffers : List.Forall₂ (fun p q => q.1 = p.1.dim ∧ q.2.1 = p.2 ∧
    transfer a rule slot axes p.1 p.2 = .ok q.2.2) (exchanged axes) e.buffers
  masks : e.masks = masks axes
  body : ∀ direction, ∃ moves, (e.kernel direction).body =
      .block ((a :: e.buffers.map fun q => q.2.2.buffer).map .view ++ moves) ∧
    List.Forall₂ (Guards a rule classes slot axes direction) (exchanged axes) moves
  parameters : ∀ direction,
    (e.kernel direction).body.parameters = .ok (e.kernel direction).signature.parameters

variable {pins : Pins} {rule? : Option WidthRule} {e : Exchange}

theorem parts_of_kernel {buffers : BySide Transfer} {k : Kernel}
    (hbuffers : List.Forall₂ (fun p q => q.1 = p.1.dim ∧ q.2.1 = p.2 ∧
      transfer a rule slot axes p.1 p.2 = .ok q.2.2) (exchanged axes) buffers)
    (hk : kernel a classes buffers (masks axes) direction = .ok k) :
    (∃ moves, k.body = .block ((a :: buffers.map fun q => q.2.2.buffer).map .view ++ moves) ∧
      List.Forall₂ (Guards a rule classes slot axes direction) (exchanged axes) moves) ∧
    k.body.parameters = .ok k.signature.parameters := by
  unfold kernel at hk
  obtain ⟨moves, hmoves, hk⟩ := bind_eq_ok.1 hk
  obtain ⟨ps, hps, hk⟩ := bind_eq_ok.1 hk
  obtain rfl := Except.ok.inj hk
  refine ⟨⟨moves, ?_, ?_⟩, hps⟩
  · rw [List.map_cons, List.map_map]
    rfl
  · have hzip := forall₂_zip_map
      (fun p : Axis × Side => (p.1.dim, p.2, (⟨p.1.names.masks p.2, .int32⟩ : Scalar))) hbuffers
    refine (forall₂_trans hzip (mapM_eq_ok.1 hmoves)).imp ?_
    rintro p s ⟨⟨q, mask⟩, ⟨⟨-, -, htransfer⟩, rfl⟩, hs⟩
    obtain ⟨c, hc, hs⟩ := bind_eq_ok.1 hs
    exact ⟨q.2.2, c, htransfer, hc, (Except.ok.inj hs).symm⟩

/-- The entries of a table of transfers, one for each side of each free axis. -/
theorem entries_of_transfers {buffers : BySide Transfer}
    (h : transfers a rule slot axes = .ok buffers) :
    List.Forall₂ (fun p q => q.1 = p.1.dim ∧ q.2.1 = p.2 ∧
      transfer a rule slot axes p.1 p.2 = .ok q.2.2) (exchanged axes) buffers := by
  refine (mapM_eq_ok.1 h).imp ?_
  rintro p q hq
  obtain ⟨t, ht, hq⟩ := bind_eq_ok.1 hq
  obtain rfl := Except.ok.inj hq
  exact ⟨rfl, rfl, ht⟩

/-- The axes of an exchange are those of its array under the drawn names. -/
theorem exists_axes (he : exchange a pins rule? = .ok e) :
    ∃ classes slot axes, Halo.axes a classes = (slot, axes) ∧
      Parts a pins (rule?.getD .own) classes slot axes e := by
  unfold exchange at he
  obtain ⟨classes, hclasses, he⟩ := bind_eq_ok.1 he
  rcases haxes : Halo.axes a classes with ⟨slot, xs⟩
  simp only [haxes] at he
  obtain ⟨buffers, hbuffers, he⟩ := bind_eq_ok.1 he
  obtain ⟨pack, hpack, he⟩ := bind_eq_ok.1 he
  obtain ⟨unpack, hunpack, he⟩ := bind_eq_ok.1 he
  obtain rfl := Except.ok.inj he
  have hrel := entries_of_transfers hbuffers
  refine ⟨classes, slot, xs, haxes, hclasses, named (length_of_splitAxes hclasses) haxes, hrel, rfl,
    fun direction => ?_, fun direction => ?_⟩
  · cases direction with
    | pack => exact (parts_of_kernel hrel hpack).1
    | unpack => exact (parts_of_kernel hrel hunpack).1
  · cases direction with
    | pack => exact (parts_of_kernel hrel hpack).2
    | unpack => exact (parts_of_kernel hrel hunpack).2

theorem exists_parts (he : exchange a pins rule? = .ok e) :
    ∃ classes slot axes, Parts a pins (rule?.getD .own) classes slot axes e := by
  obtain ⟨classes, slot, axes, -, hparts⟩ := exists_axes he
  exact ⟨classes, slot, axes, hparts⟩

end GridKernel.Halo
