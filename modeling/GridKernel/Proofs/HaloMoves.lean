import GridKernel.Proofs.HaloLayout

/-! The moves of a halo exchange. One side's transfer is a move between the array and the buffer of
that side, built with the offsets of the side. -/
namespace GridKernel.Halo

variable {R : Type} [Arithmetic R] [ExactIntegers R] {m : Machine R} {a : GridArray}
  {classes : List AxisClass} {slot : String} {xs : List GridAxis} {x y : GridAxis} {side : Side}
  {direction : Direction} {receive send : Expr} {b : BufferAxis} {inner : List BufferAxis}

/-- The offset into the array of the cells that a direction moves. -/
def BufferAxis.offset (b : BufferAxis) : Direction → Expr
  | .pack => b.send
  | .unpack => b.receive

/-- One axis of the move of a side. -/
structure Follows (m : Machine R) (x : GridAxis) (direction : Direction) (side : Side)
    (y : GridAxis) (l : Lane) : Prop where
  toSpan : l.toSpan = x.span direction side y
  near_plain : l.near.Plain
  far_plain : l.far.Plain
  loop_plain : ∀ head, l.loop? = some head → ∀ s, ∀ e ∈ (Stmt.loop head s).exprs, e.Plain
  bound : ∀ head, l.loop? = some head → head.bound = [x.bufferName y]
  valid : (x.origin direction side).natAbs + (x.width side).toNat ≤ 2 ^ 53 → m.Valid l

theorem Spanned.steady_offset (direction : Direction) (h : Surveyed a classes slot xs) (hy : y ∈ xs)
    (hreceive : m.Steady receive (x.origin .unpack side))
    (hsend : m.Steady send (x.origin .pack side)) (hb : Spanned x side receive send y b) :
    m.Steady (b.offset direction) (x.span direction side y).origin := by
  unfold GridAxis.span BufferAxis.offset
  cases hb with
  | pinned index hcls =>
    obtain ⟨k, rfl, hlow, hhigh⟩ := h.pinned y hy index hcls
    have hexact := h.exact y hy
    rw [hcls]
    cases direction <;> exact .int (by omega)
  | exchanged hcls hpos =>
    rw [hcls]
    simp only [hpos, if_true]
    cases direction
    · exact hsend
    · exact hreceive
  | whole hcls hpos =>
    rw [hcls]
    simp only [hpos, if_false]
    cases direction <;> exact .int (by decide)

/-- The extent of an axis of the buffer is that of the cells moved. -/
theorem Spanned.steady_allocated (direction : Direction) (h : Surveyed a classes slot xs)
    (hm : Measures m xs)
    (hx : x ∈ xs) (hy : y ∈ xs) (hb : Spanned x side receive send y b) {c : GridArray} {i : Nat}
    (hhalo : c.halo[i]? = some b.halo) (hshape : c.shape[i]? = some b.dim.extent) :
    ∃ e, c.allocated i = .ok e ∧ m.Steady e (x.span direction side y).extent := by
  have hzero : (0 : UInt64).toNat = 0 := rfl
  unfold GridAxis.span
  cases hb with
  | pinned index hcls =>
    obtain ⟨k, rfl, -, -⟩ := h.pinned y hy index hcls
    have hone : (0 : UInt64).toNat + 1 + (0 : UInt64).toNat ≤ 2 ^ 53 := by decide
    rw [hcls]
    exact Halo.steady_allocated (n := 1) hhalo hshape (.int (by decide)) hone
  | exchanged hcls hpos =>
    have hexact := h.exact x hx
    have hwidth : (x.width side).toNat ≤ x.allocated := by
      unfold GridAxis.allocated
      cases side
      · show x.halo.left.toNat ≤ _
        omega
      · show x.halo.right.toNat ≤ _
        omega
    have hsum : (0 : UInt64).toNat + (x.width side).toNat + (0 : UInt64).toNat =
        (x.width side).toNat := by rw [hzero, Nat.zero_add, Nat.add_zero]
    rw [hcls]
    simp only [hpos, if_true]
    obtain ⟨e, he, hsteady⟩ := Halo.steady_allocated hhalo hshape
      (.ofSize (m := m) (n := x.width side) (by omega)) (by rw [Extent.none, hsum]; omega)
    refine ⟨e, he, ?_⟩
    rwa [Extent.none, hsum] at hsteady
  | whole hcls hpos =>
    rw [hcls]
    simp only [hpos, if_false]
    exact Halo.steady_allocated hhalo hshape (h.steady_extent hm hy) (h.exact y hy)

/-- Along each axis a side is moved by one lane. -/
theorem exists_lane (direction : Direction) (h : Surveyed a classes slot xs)
    (hm : Measures m xs) (hx : x ∈ xs)
    (hy : y ∈ xs) (hreceive : m.Steady receive (x.origin .unpack side))
    (hsend : m.Steady send (x.origin .pack side)) (hb : Spanned x side receive send y b)
    (hget : inner[y.position]? = some b) :
    ∃ l : Lane, moveAxis (transferOf a slot x side inner) direction y.position y.cls =
        .ok (l.near, l.far, l.loop?) ∧ Follows m x direction side y l := by
  have hoffset := hb.steady_offset direction h hy hreceive hsend
  obtain ⟨e, he, hextent⟩ := hb.steady_allocated direction
    (c := (transferOf a slot x side inner).buffer) (i := y.position + 1) h hm hx hy
    (by simp [transferOf, hget]) (by simp [transferOf, hget])
  have hdim : entryAt (transferOf a slot x side inner).buffer.dims (y.position + 1) =
      .ok b.dim := by
    simp [transferOf, entryAt, hget]
  have hentry : entryAt (direction.offsets (transferOf a slot x side inner)) y.position =
      .ok (b.offset direction) := by
    cases direction <;> simp [Direction.offsets, transferOf, entryAt, hget, BufferAxis.offset]
  have hname := hb.name
  unfold moveAxis
  simp only [hdim, hentry, ok_bind, he]
  cases hcls : y.cls with
  | pinned index =>
    have hone : (x.span direction side y).extent = 1 := by
      unfold GridAxis.span
      rw [hcls]
      cases index <;> rfl
    exact ⟨⟨x.span direction side y, .int 0, b.offset direction, none⟩, rfl, rfl, .int 0,
      hoffset.plain, by rintro _ ⟨⟩, by rintro _ ⟨⟩,
      fun _ => Machine.valid_still hone (.int (by decide)) hoffset⟩
  | free =>
    obtain ⟨far, hfar⟩ := (b.offset direction).exists_add_dim b.dim
    refine ⟨⟨x.span direction side y, .dim b.dim, far, some ⟨b.dim, .upTo e, [], .parallel⟩⟩, ?_,
      rfl, .dim _, hoffset.plain.add (.dim _) hfar, ?_, ?_, fun hle => ?_⟩
    · simp only [AxisClass.isPinned, hfar, ok_bind]
      rfl
    · rintro head ⟨⟩ s e' he'
      simp only [Stmt.exprs, Bounds.upTo, List.flatMap_nil, List.mem_cons, List.not_mem_nil,
        or_false] at he'
      rcases he' with rfl | rfl
      · exact .int 0
      · exact hextent.plain
    · rintro head ⟨⟩
      simp [LoopHead.bound, hname]
    · refine Machine.valid_swept hextent hoffset hfar ?_
      unfold GridAxis.span
      rw [hcls]
      by_cases hpos : y.position = x.position
      · simpa [hpos] using hle
      · simpa [hpos] using h.exact y hy

/-- The loops that move the cells of a transfer along given lanes. -/
def moveOf (a : GridArray) (t : Transfer) (direction : Direction) (lanes : List Lane) : Stmt :=
  let buffered := Expr.access t.buffer (.int direction.slot :: lanes.map Lane.near)
  let owned := Expr.access a (lanes.map Lane.far)
  let cell := match direction with
    | .pack => Stmt.assign buffered owned
    | .unpack => Stmt.assign owned buffered
  cell.nest (Lane.heads lanes)

theorem mapM_moveAxis {t : Transfer} {direction : Direction} {lanes : List Lane}
    (h : List.Forall₂ (fun p l => moveAxis t direction p.2 p.1 = .ok (l.near, l.far, l.loop?))
      classes.zipIdx lanes) :
    classes.zipIdx.mapM (fun (c, i) => moveAxis t direction i c) =
      .ok (lanes.map fun l => (l.near, l.far, l.loop?)) :=
  mapM_eq_ok.2 (List.forall₂_map_right_iff.2 h)

theorem exists_move (h : Surveyed a classes slot xs) (hm : Measures m xs) (hx : x ∈ xs)
    (hreceive : m.Steady receive (x.origin .unpack side))
    (hsend : m.Steady send (x.origin .pack side))
    (hinner : List.Forall₂ (Spanned x side receive send) xs inner) (direction : Direction) :
    ∃ lanes, move a classes (transferOf a slot x side inner) direction =
        .ok (moveOf a (transferOf a slot x side inner) direction lanes) ∧
      List.Forall₂ (Follows m x direction side) xs lanes := by
  obtain ⟨lanes, hlanes⟩ := exists_forall₂ fun y hy => by
    obtain ⟨hlength, hentries⟩ := List.forall₂_iff_get.1 hinner
    obtain ⟨hlt, hxy⟩ := List.getElem?_eq_some_iff.1 (h.getElem_position hy)
    have hb := hentries y.position hlt (hlength ▸ hlt)
    simp only [List.get_eq_getElem, hxy] at hb
    exact exists_lane direction h hm hx hy hreceive hsend hb
      (List.getElem?_eq_getElem _)
  have hmoves : List.Forall₂ (fun p l =>
      moveAxis (transferOf a slot x side inner) direction p.2 p.1 = .ok (l.near, l.far, l.loop?))
      classes.zipIdx lanes := by
    rw [h.zipIdx_classes, List.forall₂_map_left_iff]
    exact hlanes.imp fun _ _ hl => hl.1
  have hheads : (lanes.map fun l => (l.near, l.far, l.loop?)).reverse.filterMap (·.2.2) =
      Lane.heads lanes := by
    rw [← List.map_reverse, List.filterMap_map]
    rfl
  refine ⟨lanes, ?_, hlanes.imp fun _ _ hl => hl.2⟩
  unfold move
  rw [mapM_moveAxis hmoves, ok_bind, hheads]
  simp only [List.map_map]
  rfl

omit [ExactIntegers R] in
/-- The loops of a move run over axes of different names. -/
theorem heads_distinct (h : Surveyed a classes slot xs) {lanes : List Lane}
    (hlanes : List.Forall₂ (Follows m x direction side) xs lanes) :
    ((Lane.heads lanes).flatMap LoopHead.bound).Nodup := by
  have hsub : ∀ {ys ls}, List.Forall₂ (Follows m x direction side) ys ls →
      ((ls.filterMap Lane.loop?).flatMap LoopHead.bound).Sublist (ys.map x.bufferName) := by
    intro ys ls hrel
    induction hrel with
    | nil => exact .slnil
    | @cons y l ys ls hl _ ih =>
      cases hloop : l.loop? with
      | none =>
        rw [List.filterMap_cons, hloop]
        exact ih.cons _
      | some head =>
        rw [List.filterMap_cons, hloop, List.flatMap_cons, hl.bound head hloop]
        exact ih.cons_cons _
  have hnames := (List.nodup_cons.1 (h.bufferNames_distinct x)).2
  apply (hsub (List.forall₂_reverse_iff.2 hlanes)).nodup
  rwa [List.map_reverse, List.nodup_reverse]

end GridKernel.Halo
