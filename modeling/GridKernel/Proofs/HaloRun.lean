import GridKernel.Proofs.HaloBuild

/-! Running the moves of a halo exchange. Packing a side fills slot 0 of its buffer with the cells
that it sends, and unpacking stores slot 1 in the halo that it receives. -/
namespace GridKernel.Halo

variable {R : Type} [Arithmetic R] [ExactIntegers R] {m : Machine R} {a : GridArray}
  {classes : List AxisClass} {slot : String} {xs : List GridAxis} {x y : GridAxis} {side : Side}
  {direction : Direction} {receive send : Expr} {inner : List BufferAxis} {lanes : List Lane}
  {f c : Buffer R}

/-- The indices that a side of an axis moves, along all axes. -/
def box (x : GridAxis) (direction : Direction) (side : Side) (xs : List GridAxis) : List Span :=
  xs.map (x.span direction side)

/-- The multi-index of a position counted from zero. -/
def counted (ks : List Nat) : List Int64 := ks.map fun (k : Nat) => Int64.ofInt k

/-- The axes with halos of one width on both sides. -/
def GridAxis.Even (x : GridAxis) : Prop := x.halo.left = x.halo.right

theorem GridAxis.Even.width (h : x.Even) (side : Side) : x.width side = x.halo.left := by
  cases side
  · rfl
  · exact h.symm

/-- The cells that are moved along an even axis lie within the allocation. -/
theorem GridAxis.Even.inside (h : x.Even) (direction : Direction) (side : Side) :
    0 ≤ x.origin direction side ∧
      x.origin direction side + (x.width side).toNat ≤ x.allocated := by
  have hsame : x.halo.left.toNat = x.halo.right.toNat := congrArg UInt64.toNat h
  rw [h.width, GridAxis.allocated]
  cases side <;> cases direction <;> simp only [GridAxis.origin] <;> omega

theorem span_inside (direction : Direction) (side : Side) (h : Surveyed a classes slot xs)
    (hx : x.Even) (hxs : x ∈ xs) (hy : y ∈ xs) :
    0 ≤ (x.span direction side y).origin ∧
      (x.span direction side y).origin + (x.span direction side y).extent ≤ y.allocated := by
  unfold GridAxis.span
  cases hcls : y.cls with
  | pinned index =>
    obtain ⟨k, rfl, hlow, hhigh⟩ := h.pinned y hy index hcls
    simp only
    omega
  | free =>
    by_cases hpos : y.position = x.position
    · obtain rfl := h.eq_of_position hxs hy hpos
      simpa using hx.inside direction side
    · simp [hpos]

theorem box_exact (h : Surveyed a classes slot xs) (hx : x.Even) (hxs : x ∈ xs) :
    ∀ s ∈ box x direction side xs, s.Exact := by
  intro s hs k hk
  obtain ⟨y, hy, rfl⟩ := List.mem_map.1 hs
  have hinside := span_inside direction side h hx hxs hy
  have hexact := h.exact y hy
  omega

omit [Arithmetic R] [ExactIntegers R] in
theorem box_inside (h : Surveyed a classes slot xs) (hx : x.Even) (hxs : x ∈ xs)
    (hf : f.dims.map UInt64.toNat = xs.map GridAxis.allocated) :
    Span.Inside f.dims (box x direction side xs) := by
  rw [Span.Inside, box, List.forall₂_map_right_iff]
  rw [map_eq_map_iff_forall₂] at hf
  refine List.forall₂_iff_zip.2 ⟨hf.length_eq, fun {n y} hny => ?_⟩
  have hn := List.forall₂_zip hf hny
  have hinside := span_inside direction side h hx hxs
    (List.of_mem_zip hny).2
  rwa [hn]

/-- The buffer of a side has two slots of the cells that the side moves. -/
theorem transfer_fits_iff (h : Surveyed a classes slot xs) (hm : Measures m xs) (hxs : x ∈ xs)
    (hinner : List.Forall₂ (Spanned x side receive send) xs inner) (direction : Direction) :
    m.Fits (transferOf a slot x side inner).buffer c ↔
      c.dims.map UInt64.toNat = 2 :: (box x direction side xs).map Span.extent := by
  refine Machine.fits_iff ?_ ?_
  · simp [box, transferOf, GridArray.rank, hinner.length_eq]
  · rintro (_ | i) n hn
    · obtain ⟨e, he, hsteady⟩ := steady_allocated (n := 2) (m := m) (i := 0)
        (b := (transferOf a slot x side inner).buffer) rfl rfl (.int (by decide)) (by decide)
      obtain rfl : 2 = n := by simpa using hn
      exact ⟨e, he, (hsteady.reads m ⟨rfl, rfl⟩).1⟩
    · rw [List.getElem?_cons_succ, box, List.map_map, List.getElem?_map] at hn
      obtain ⟨y, hy, rfl⟩ := Option.map_eq_some_iff.1 hn
      obtain ⟨hlt, hxy⟩ := List.getElem?_eq_some_iff.1 hy
      have hb := hinner.get hlt (hinner.length_eq ▸ hlt)
      simp only [List.get_eq_getElem, hxy] at hb
      have hget := List.getElem?_eq_getElem (hinner.length_eq ▸ hlt)
      obtain ⟨e, he, hsteady⟩ := hb.steady_allocated direction
        (c := (transferOf a slot x side inner).buffer) (i := i + 1) h hm hxs
        (List.mem_of_getElem? hy) (by simp [transferOf, hget]) (by simp [transferOf, hget])
      exact ⟨e, he, (hsteady.reads m ⟨rfl, rfl⟩).1⟩

section Move

variable (h : Surveyed a classes slot xs) (hxs : x ∈ xs) (hx : x.Even)
  (hlanes : List.Forall₂ (Follows m x direction side) xs lanes)
include h hxs hx hlanes

omit [ExactIntegers R] in
theorem lanes_valid : ∀ l ∈ lanes, m.Valid l := by
  intro l hl
  obtain ⟨y, hy, hfollows⟩ := forall₂_mem_right hlanes hl
  apply hfollows.valid
  have hinside := hx.inside direction side
  have hexact := h.exact x hxs
  omega

omit [ExactIntegers R] h hxs hx in
theorem lanes_spans : lanes.map Lane.toSpan = box x direction side xs :=
  map_eq_map_iff_forall₂.2 (hlanes.flip.imp fun _ _ hl => hl.toSpan)

omit [ExactIntegers R] h hxs hx in
theorem lanes_within (ks : List Nat) :
    Lane.Within lanes ks ↔ Span.Within (box x direction side xs) ks := by
  rw [← lanes_spans hlanes, Span.Within, List.forall₂_map_left_iff, Lane.Within]

omit [ExactIntegers R] in
theorem eval_far {m' : Machine R} {ks : List Nat} (hm' : m.Agrees m')
    (hks : Lane.Within lanes ks) (hon : List.Forall₂ (Lane.On m') lanes ks) :
    m'.evalIndices (lanes.map Lane.far) = .ok (Span.index (box x direction side xs) ks) := by
  rw [← lanes_spans hlanes]
  exact Machine.evalIndices_far (lanes_valid h hxs hx hlanes) hm' hks hon

theorem eval_near {m' : Machine R} {ks : List Nat} (hm' : m.Agrees m')
    (hks : Lane.Within lanes ks) (hon : List.Forall₂ (Lane.On m') lanes ks) :
    m'.evalIndices (.int direction.slot :: lanes.map Lane.near) =
      .ok (direction.slot :: counted ks) := by
  have hslot : m'.evalIndex (.int direction.slot) = .ok direction.slot := by
    have hvalue := (Machine.Evaluates.int (m := m') (n := direction.slot) (by
      cases direction <;> decide)).evalIndex
    rwa [Int64.ofInt_toInt] at hvalue
  have hnear := Machine.evalIndices_near (lanes_valid h hxs hx hlanes) hm' hks hon
  have hzero : lanes.map (fun l => l.fromZero) = (lanes.map Lane.toSpan).map Span.fromZero := by
    rw [List.map_map]
    rfl
  rw [hzero, Span.index_fromZero (by simpa using hks.length_eq)] at hnear
  rw [Machine.evalIndices_cons, hslot, hnear]
  rfl

end Move

omit [Arithmetic R] [ExactIntegers R] in
theorem box_fromZero_exact (h : Surveyed a classes slot xs) (hx : x.Even) (hxs : x ∈ xs) :
    ∀ s ∈ (box x direction side xs).map Span.fromZero, s.Exact := by
  intro s hs
  obtain ⟨z, hz, rfl⟩ := List.mem_map.1 hs
  obtain ⟨y, hy, rfl⟩ := List.mem_map.1 hz
  have hinside := span_inside direction side h hx hxs hy
  have hle := h.exact y hy
  exact Span.Exact.fromZero (by omega)

omit [Arithmetic R] [ExactIntegers R] in
theorem counted_inj (h : Surveyed a classes slot xs) (hx : x.Even) (hxs : x ∈ xs)
    {ks ks' : List Nat} (hks : Span.Within (box x direction side xs) ks)
    (hks' : Span.Within (box x direction side xs) ks') (heq : counted ks = counted ks') :
    ks = ks' := by
  apply Span.index_inj (box_fromZero_exact h hx hxs) (Span.within_fromZero.2 hks)
    (Span.within_fromZero.2 hks')
  rwa [Span.index_fromZero hks.length_eq, Span.index_fromZero hks'.length_eq]

omit [Arithmetic R] [ExactIntegers R] in
/-- A slot of a buffer has a cell at every position of the box. -/
theorem slot_inBounds (h : Surveyed a classes slot xs) (hx : x.Even) (hxs : x ∈ xs)
    (hdims : c.dims.map UInt64.toNat = 2 :: (box x direction side xs).map Span.extent)
    {ks : List Nat} (hks : Span.Within (box x direction side xs) ks) (d : Direction) :
    Buffer.InBounds c.dims (d.slot :: counted ks) := by
  obtain ⟨n, ns, hns⟩ : ∃ n ns, c.dims = n :: ns := by
    cases hc : c.dims with
    | nil =>
      rw [hc] at hdims
      cases hdims
    | cons n ns => exact ⟨n, ns, rfl⟩
  rw [hns, List.map_cons] at hdims
  obtain ⟨hn, hrest⟩ := List.cons.inj hdims
  have hinside := (Span.inside_fromZero hrest).inBounds (box_fromZero_exact h hx hxs)
    (Span.within_fromZero.2 hks)
  rw [Span.index_fromZero hks.length_eq] at hinside
  rw [hns]
  refine .cons ?_ hinside
  rw [hn]
  cases d <;> decide

omit [Arithmetic R] [ExactIntegers R] in
theorem box_extents (x : GridAxis) (direction : Direction) (side : Side) (xs : List GridAxis) :
    (box x direction side xs).map Span.extent = (box x .pack side xs).map Span.extent := by
  simp only [box, List.map_map]
  apply List.map_congr_left
  intro y _
  simp only [Function.comp_apply, GridAxis.span]
  split
  · rfl
  · rfl
  · split <;> rfl

/-- A machine binds a full buffer of the right extents to a transfer. -/
structure Carries (m : Machine R) (x : GridAxis) (side : Side) (xs : List GridAxis) (t : Transfer)
    (c : Buffer R) : Prop where
  array : m.arrays[t.buffer.name]? = some c
  full : c.Full
  dims : c.dims.map UInt64.toNat = 2 :: (box x .pack side xs).map Span.extent

/-- A machine binds a full buffer of the allocated extents to an array. -/
structure Stores (m : Machine R) (a : GridArray) (xs : List GridAxis) (f : Buffer R) : Prop where
  array : m.arrays[a.name]? = some f
  full : f.Full
  dims : f.dims.map UInt64.toNat = xs.map GridAxis.allocated

section Run

variable (h : Surveyed a classes slot xs) (hm : Measures m xs) (hxs : x ∈ xs) (hx : x.Even)
  {t : Transfer} (ht : transfer a .own slot (xs.map GridAxis.toAxis) x.toAxis side = .ok t)
  (hne : a.name ≠ t.buffer.name) (hf : Stores m a xs f) (hc : Carries m x side xs t c)
include h hm hxs hx ht hne hf hc

/-- Packing a side fills slot 0 of its buffer with the cells that the side sends. -/
theorem run_pack :
    ∃ s m' c', move a classes t .pack = .ok s ∧ Machine.run s m = .done m' ∧
      m.Rebinds m' t.buffer.name c' ∧ Carries m' x side xs t c' ∧
      ∀ ks, Span.Within (box x .pack side xs) ks →
        c'.get? (Direction.pack.slot :: counted ks) =
          f.get? (Span.index (box x .pack side xs) ks) := by
  obtain ⟨receive, send, inner, hreceive, hsend, hinner, ht'⟩ := exists_transfer h hm hxs side
  obtain ⟨lanes, hmove, hlanes⟩ := exists_move h hm hxs hreceive hsend hinner .pack
  obtain rfl := Except.ok.inj (ht.symm.trans ht')
  have hvalid := lanes_valid h hxs hx hlanes
  have hwithin := lanes_within hlanes
  have hends := Machine.ends_moves hf.array hc.array hne hf.full hc.full
    (fun l hl => (hvalid l hl).counts) (fun l hl => (hvalid l hl).makes) (heads_distinct h hlanes)
    (fun _ _ hm' hks hon => eval_near h hxs hx hlanes hm' hks hon)
    (fun _ _ hm' hks hon => eval_far h hxs hx hlanes hm' hks hon)
    (fun ks ks' hks hks' heq => counted_inj h hx hxs ((hwithin ks).1 hks) ((hwithin ks').1 hks')
      (List.cons.inj heq).2)
    (fun ks hks => slot_inBounds h hx hxs hc.dims ((hwithin ks).1 hks) .pack)
  obtain ⟨m', hdone, c', moves, hm', hmoved, hmem⟩ := hends.exists_done (by
    rintro e m' ⟨ks, hks, hout, -⟩
    exact hout ((box_inside h hx hxs hf.dims).inBounds (box_exact h hx hxs) ((hwithin ks).1 hks)))
  refine ⟨_, m', c', hmove, hdone, hm', ⟨hm'.array, hmoved.full, ?_⟩, fun ks hks => ?_⟩
  · rw [hmoved.dims, hc.dims]
  · obtain ⟨v, hv, hcv⟩ := hmoved.moved _ ((hmem _).2 ⟨ks, (hwithin ks).2 hks, rfl⟩)
    rw [hcv, hv]

/-- Unpacking a side stores slot 1 of its buffer in the halo of the side. -/
theorem run_unpack :
    ∃ s m' f', move a classes t .unpack = .ok s ∧ Machine.run s m = .done m' ∧
      m.Rebinds m' a.name f' ∧ Stores m' a xs f' ∧ f'.dims = f.dims ∧
      (∀ ks, Span.Within (box x .unpack side xs) ks →
        f'.get? (Span.index (box x .unpack side xs) ks) =
          c.get? (Direction.unpack.slot :: counted ks)) ∧
      ∀ is, (¬ ∃ ks, Span.Within (box x .unpack side xs) ks ∧
        is = Span.index (box x .unpack side xs) ks) → f'.get? is = f.get? is := by
  obtain ⟨receive, send, inner, hreceive, hsend, hinner, ht'⟩ := exists_transfer h hm hxs side
  obtain ⟨lanes, hmove, hlanes⟩ := exists_move h hm hxs hreceive hsend hinner .unpack
  obtain rfl := Except.ok.inj (ht.symm.trans ht')
  have hvalid := lanes_valid h hxs hx hlanes
  have hwithin := lanes_within hlanes
  have hdims := hc.dims
  rw [← box_extents x .unpack] at hdims
  have hends := Machine.ends_moves hc.array hf.array hne.symm hc.full hf.full
    (fun l hl => (hvalid l hl).counts) (fun l hl => (hvalid l hl).makes) (heads_distinct h hlanes)
    (fun _ _ hm' hks hon => eval_far h hxs hx hlanes hm' hks hon)
    (fun _ _ hm' hks hon => eval_near h hxs hx hlanes hm' hks hon)
    (fun ks ks' hks hks' heq => Span.index_inj (box_exact h hx hxs) ((hwithin ks).1 hks)
      ((hwithin ks').1 hks') heq)
    (fun ks hks => (box_inside h hx hxs hf.dims).inBounds (box_exact h hx hxs)
      ((hwithin ks).1 hks))
  obtain ⟨m', hdone, f', moves, hm', hmoved, hmem⟩ := hends.exists_done (by
    rintro e m' ⟨ks, hks, hout, -⟩
    exact hout (slot_inBounds h hx hxs hdims ((hwithin ks).1 hks) .unpack))
  refine ⟨_, m', f', hmove, hdone, hm', ⟨hm'.array, hmoved.full, by rw [hmoved.dims, hf.dims]⟩,
    hmoved.dims, fun ks hks => ?_, fun is his => ?_⟩
  · obtain ⟨v, hv, hfv⟩ := hmoved.moved _ ((hmem _).2 ⟨ks, (hwithin ks).2 hks, rfl⟩)
    rw [hfv, hv]
  · refine hmoved.kept is fun hmoves => ?_
    obtain ⟨p, hp, rfl⟩ := List.mem_map.1 hmoves
    obtain ⟨ks, hks, rfl⟩ := (hmem p).1 hp
    exact his ⟨ks, (hwithin ks).1 hks, rfl⟩

end Run

end GridKernel.Halo
