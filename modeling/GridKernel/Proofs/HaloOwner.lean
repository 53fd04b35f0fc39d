import GridKernel.Proofs.HaloKernel

/-! Owners in a halo exchange. An owner that is ready for an exchange runs both kernels, and stays
ready. -/
namespace GridKernel.Halo

variable {R : Type} [Arithmetic R] [ExactIntegers R] {m m' : Machine R} {a : GridArray}
  {classes : List AxisClass} {slot : String} {xs : List GridAxis} {x : GridAxis} {e : Exchange}
  {side : Side} {f f' c c' : Buffer R} {t : Transfer}

/-- An owner has the array, all transfer buffers and all masks, those of other axes being zero. -/
structure Ready (m : Machine R) (a : GridArray) (slot : String) (xs : List GridAxis)
    (x : GridAxis) (f : Buffer R) : Prop where
  measures : Measures m xs
  stores : Stores m a xs f
  carries : ∀ p ∈ pairs xs, ∀ t,
    transfer a .own slot (xs.map GridAxis.toAxis) p.1.toAxis p.2 = .ok t →
      ∃ c, Carries m p.1 p.2 xs t c
  masks : ∀ p ∈ pairs xs, Masked m x p

theorem Measures.agrees (h : Surveyed a classes slot xs) (hm : Measures m xs)
    (hm' : m.Agrees m') : Measures m' xs :=
  fun _ hx => (h.steady_extent hm hx).reads _ hm'

/-- A buffer fits the array when it has the allocated extents. -/
theorem fits_array_iff (h : Surveyed a classes slot xs) (hm : Measures m xs) :
    m.Fits a f ↔ f.dims.map UInt64.toNat = xs.map GridAxis.allocated := by
  refine Machine.fits_iff ?_ ?_
  · rw [GridArray.rank, h.dims, List.length_map, List.length_map]
  · intro i n hn
    rw [List.getElem?_map] at hn
    obtain ⟨y, hy, rfl⟩ := Option.map_eq_some_iff.1 hn
    obtain ⟨e, he, hsteady⟩ := h.steady_allocated hm (List.mem_of_getElem? hy)
    rw [h.position hy] at he
    exact ⟨e, he, (hsteady.reads m ⟨rfl, rfl⟩).1⟩

/-- The buffer of a transfer has the name drawn for the side. -/
theorem name_of_transfer (h : Surveyed a classes slot xs) (hm : Measures m xs) (hx : x ∈ xs)
    (ht : transfer a .own slot (xs.map GridAxis.toAxis) x.toAxis side = .ok t) :
    t.buffer.name = x.names.buffers side := by
  obtain ⟨receive, send, inner, -, -, -, ht'⟩ := exists_transfer h hm hx side
  rw [Except.ok.inj (ht.symm.trans ht')]
  rfl

theorem fits_iff_dims (h : Surveyed a classes slot xs) (hm : Measures m xs) (hx : x ∈ xs)
    (ht : transfer a .own slot (xs.map GridAxis.toAxis) x.toAxis side = .ok t) :
    m.Fits t.buffer c ↔ c.dims.map UInt64.toNat = 2 :: (box x .pack side xs).map Span.extent := by
  obtain ⟨receive, send, inner, -, -, hinner, ht'⟩ := exists_transfer h hm hx side
  obtain rfl := Except.ok.inj (ht.symm.trans ht')
  exact transfer_fits_iff h hm hx hinner .pack

theorem pair_of_name (h : Surveyed a classes slot xs) {p q : GridAxis × Side} (hp : p ∈ pairs xs)
    (hq : q ∈ pairs xs) (hname : p.1.names.buffers p.2 = q.1.names.buffers q.2) : p = q :=
  List.inj_on_of_nodup_map (List.nodup_append.1 h.transfer_names).1 hp hq hname

omit [ExactIntegers R] [Arithmetic R] in
theorem Carries.rebinds {name : String} (h : Carries m x side xs t c)
    (hm' : m.Rebinds m' name c') (hne : t.buffer.name ≠ name) : Carries m' x side xs t c :=
  ⟨(hm'.others _ hne).trans h.array, h.full, h.dims⟩

omit [ExactIntegers R] [Arithmetic R] in
theorem Stores.rebinds {name : String} (h : Stores m a xs f) (hm' : m.Rebinds m' name c')
    (hne : a.name ≠ name) : Stores m' a xs f :=
  ⟨(hm'.others _ hne).trans h.array, h.full, h.dims⟩

section Ready

variable (h : Surveyed a classes slot xs) (hr : Ready m a slot xs x f)
include h hr

/-- An owner stays ready when a transfer buffer is replaced. -/
theorem Ready.rebinds_transfer {p : GridAxis × Side} (hp : p ∈ pairs xs)
    (ht : transfer a .own slot (xs.map GridAxis.toAxis) p.1.toAxis p.2 = .ok t)
    (hm' : m.Rebinds m' t.buffer.name c') (hc' : Carries m' p.1 p.2 xs t c') :
    Ready m' a slot xs x f := by
  have hname := name_of_transfer h hr.measures (mem_pairs.1 hp).1 ht
  refine ⟨hr.measures.agrees h hm'.agrees, hr.stores.rebinds hm' ?_, ?_,
    fun q hq => (hr.masks q hq).agrees hm'.agrees⟩
  · rw [hname]
    exact (h.transfer_ne hp).1
  · intro q hq t' ht'
    by_cases hpq : q = p
    · subst hpq
      obtain rfl := Except.ok.inj (ht.symm.trans ht')
      exact ⟨c', hc'⟩
    · obtain ⟨c, hc⟩ := hr.carries q hq t' ht'
      refine ⟨c, hc.rebinds hm' fun heq => hpq (pair_of_name h hq hp ?_)⟩
      rw [← name_of_transfer h hr.measures (mem_pairs.1 hq).1 ht', heq, hname]

/-- An owner stays ready when the array is replaced. -/
theorem Ready.rebinds_array (hm' : m.Rebinds m' a.name f') (hf' : Stores m' a xs f') :
    Ready m' a slot xs x f' := by
  refine ⟨hr.measures.agrees h hm'.agrees, hf', ?_, fun q hq => (hr.masks q hq).agrees hm'.agrees⟩
  intro q hq t' ht'
  obtain ⟨c, hc⟩ := hr.carries q hq t' ht'
  refine ⟨c, hc.rebinds hm' ?_⟩
  rw [name_of_transfer h hr.measures (mem_pairs.1 hq).1 ht']
  exact (h.transfer_ne hq).1.symm

omit hr in
/-- Being ready does not depend on the indices of loops. -/
theorem Ready.idle (hr : Ready m a slot xs x f) : Ready m.idle a slot xs x f :=
  have hidle : m.Agrees m.idle := ⟨rfl, rfl⟩
  { measures := hr.measures.agrees h hidle
    stores := ⟨hr.stores.array, hr.stores.full, hr.stores.dims⟩
    carries := fun p hp t ht =>
      let ⟨c, hc⟩ := hr.carries p hp t ht
      ⟨c, hc.array, hc.full, hc.dims⟩
    masks := fun p hp => (hr.masks p hp).agrees hidle }

/-- The views of a kernel succeed for an owner that is ready. -/
theorem Ready.views (hbuilt : Built a classes slot xs e) :
    ∀ b ∈ a :: e.buffers.map fun q => q.2.2.buffer,
      ∃ c, m.arrays[b.name]? = some c ∧ m.Fits b c := by
  intro b hb
  rcases List.mem_cons.1 hb with rfl | hb
  · exact ⟨f, hr.stores.array, (fits_array_iff h hr.measures).2 hr.stores.dims⟩
  · obtain ⟨q, hq, rfl⟩ := List.mem_map.1 hb
    obtain ⟨p, hp, -, -, ht⟩ := forall₂_mem_right hbuilt.buffers hq
    obtain ⟨c, hc⟩ := hr.carries p hp _ ht
    exact ⟨c, hc.array, (fits_iff_dims h hr.measures (mem_pairs.1 hp).1 ht).2 hc.dims⟩

end Ready

/-- Slot 0 of a buffer holds the cells of an array that a side sends. -/
def Packed (x : GridAxis) (side : Side) (xs : List GridAxis) (f c : Buffer R) : Prop :=
  ∀ ks, Span.Within (box x .pack side xs) ks →
    c.get? (Direction.pack.slot :: counted ks) = f.get? (Span.index (box x .pack side xs) ks)

/-- The halo of a side of an array holds slot 1 of a buffer. -/
def Unpacked (x : GridAxis) (side : Side) (xs : List GridAxis) (f c : Buffer R) : Prop :=
  ∀ ks, Span.Within (box x .unpack side xs) ks →
    f.get? (Span.index (box x .unpack side xs) ks) = c.get? (Direction.unpack.slot :: counted ks)

/-- A multi-index lies in the halo of a side. -/
def InHalo (x : GridAxis) (side : Side) (xs : List GridAxis) (is : List Int64) : Prop :=
  ∃ ks, Span.Within (box x .unpack side xs) ks ∧ is = Span.index (box x .unpack side xs) ks

omit [Arithmetic R] [ExactIntegers R] in
theorem mem_pairs_of_free (hx : x ∈ xs) (hfree : x.cls = .free) (side : Side) :
    (x, side) ∈ pairs xs :=
  mem_pairs.2 ⟨hx, by rw [hfree]; rfl⟩

omit [Arithmetic R] [ExactIntegers R] in
/-- The entry along the exchanged axis of a multi-index that a side moves. -/
theorem entry_of_box (h : Surveyed a classes slot xs) (hx : x ∈ xs) (hfree : x.cls = .free)
    (heven : x.Even) {direction : Direction} {ks : List Nat} {is : List Int64}
    (hks : Span.Within (box x direction side xs) ks)
    (his : is = Span.index (box x direction side xs) ks) :
    ∃ i, is[x.position]? = some i ∧ x.origin direction side ≤ i.toInt ∧
      i.toInt < x.origin direction side + (x.width side).toNat := by
  have hin := (Span.exists_index_iff (box_exact h heven hx)).1 ⟨ks, hks, his⟩
  have hbox : (box x direction side xs)[x.position]? =
      some ⟨x.origin direction side, (x.width side).toNat⟩ := by
    rw [box, List.getElem?_map, h.getElem_position hx]
    simp [GridAxis.span, hfree]
  obtain ⟨hlt, hspan⟩ := List.getElem?_eq_some_iff.1 hbox
  have hentry := hin.get hlt (hin.length_eq ▸ hlt)
  simp only [List.get_eq_getElem, hspan] at hentry
  exact ⟨_, List.getElem?_eq_getElem (hin.length_eq ▸ hlt), hentry⟩

omit [Arithmetic R] [ExactIntegers R] in
/-- The halos of both sides are apart. -/
theorem halos_disjoint (h : Surveyed a classes slot xs) (hx : x ∈ xs) (hfree : x.cls = .free)
    (heven : x.Even) {is : List Int64} (hleft : InHalo x .left xs is) :
    ¬ InHalo x .right xs is := by
  rintro ⟨ks, hks, hright⟩
  obtain ⟨ks', hks', hleft⟩ := hleft
  obtain ⟨i, hi, hlow, -⟩ := entry_of_box h hx hfree heven hks hright
  obtain ⟨j, hj, -, hhigh⟩ := entry_of_box h hx hfree heven hks' hleft
  obtain rfl := Option.some.inj (hi.symm.trans hj)
  rw [heven.width] at hhigh
  simp only [GridAxis.origin] at hlow hhigh
  omega

section Kernels

variable (h : Surveyed a classes slot xs) (hr : Ready m a slot xs x f) (hx : x ∈ xs)
  (hfree : x.cls = .free) (heven : x.Even)
include h hr hx hfree heven

/-- Packing one side keeps an owner ready. -/
theorem Ready.pack_side (side : Side) :
    ∃ t s m' c, transfer a .own slot (xs.map GridAxis.toAxis) x.toAxis side = .ok t ∧
      move a classes t .pack = .ok s ∧ Machine.run s m = .done m' ∧
      m.Rebinds m' t.buffer.name c ∧ Carries m' x side xs t c ∧ Ready m' a slot xs x f ∧
      Packed x side xs f c := by
  have hpair := mem_pairs_of_free hx hfree side
  obtain ⟨receive, send, inner, -, -, -, ht⟩ := exists_transfer h hr.measures hx side
  obtain ⟨c, hc⟩ := hr.carries _ hpair _ ht
  obtain ⟨s, m', c', hmove, hrun, hm', hc', hpacked⟩ :=
    run_pack h hr.measures hx heven ht (h.transfer_ne hpair).1 hr.stores hc
  exact ⟨_, s, m', c', ht, hmove, hrun, hm', hc', hr.rebinds_transfer h hpair ht hm' hc', hpacked⟩

/-- Unpacking one side keeps an owner ready, with the halo of the side replaced. -/
theorem Ready.unpack_side (side : Side) :
    ∃ t s m' f' c, transfer a .own slot (xs.map GridAxis.toAxis) x.toAxis side = .ok t ∧
      move a classes t .unpack = .ok s ∧ Machine.run s m = .done m' ∧
      m.Rebinds m' a.name f' ∧ m.arrays[t.buffer.name]? = some c ∧ Ready m' a slot xs x f' ∧
      Unpacked x side xs f' c ∧ ∀ is, ¬ InHalo x side xs is → f'.get? is = f.get? is := by
  have hpair := mem_pairs_of_free hx hfree side
  obtain ⟨receive, send, inner, -, -, -, ht⟩ := exists_transfer h hr.measures hx side
  obtain ⟨c, hc⟩ := hr.carries _ hpair _ ht
  obtain ⟨s, m', f', hmove, hrun, hm', hf', -, hunpacked, hkept⟩ :=
    run_unpack h hr.measures hx heven ht (h.transfer_ne hpair).1 hr.stores hc
  exact ⟨_, s, m', f', c, ht, hmove, hrun, hm', hc.array, hr.rebinds_array h hm' hf', hunpacked,
    hkept⟩

/-- Packing fills slot 0 of both buffers of the axis with the cells that the owner sends. -/
theorem Ready.pack (hbuilt : Built a classes slot xs e) :
    ∃ m', Machine.run e.pack.body m = .done m' ∧ m.Agrees m' ∧ Ready m' a slot xs x f ∧
      ∀ side t, transfer a .own slot (xs.map GridAxis.toAxis) x.toAxis side = .ok t →
        ∃ c, Carries m' x side xs t c ∧ Packed x side xs f c := by
  obtain ⟨tl, sl, m₁, cl, htl, hmovel, hrunl, hm₁, hcl, hr₁, hpackedl⟩ :=
    hr.pack_side h hx hfree heven .left
  obtain ⟨tr, sr, m₂, cr, htr, hmover, hrunr, hm₂, hcr, hr₂, hpackedr⟩ :=
    hr₁.pack_side h hx hfree heven .right
  have hrun := run_kernel h hbuilt hx (by rw [hfree]; rfl) htl htr hmovel
    hmover (hr.views h hbuilt) hr.masks hrunl hm₁.agrees hrunr hm₂.agrees
  refine ⟨m₂, hrun, hm₁.agrees.trans hm₂.agrees, hr₂, fun side t ht => ?_⟩
  cases side with
  | left =>
    obtain rfl := Except.ok.inj (ht.symm.trans htl)
    refine ⟨cl, hcl.rebinds hm₂ fun heq => ?_, hpackedl⟩
    rw [name_of_transfer h hr.measures hx ht, name_of_transfer h hr.measures hx htr] at heq
    cases pair_of_name h (mem_pairs_of_free hx hfree .left) (mem_pairs_of_free hx hfree .right) heq
  | right =>
    obtain rfl := Except.ok.inj (ht.symm.trans htr)
    exact ⟨cr, hcr, hpackedr⟩

/-- Unpacking stores slot 1 of both buffers of the axis in the halos, and nothing else. -/
theorem Ready.unpack (hbuilt : Built a classes slot xs e) :
    ∃ m' f', Machine.run e.unpack.body m = .done m' ∧ m.Agrees m' ∧ Ready m' a slot xs x f' ∧
      (∀ side t c, transfer a .own slot (xs.map GridAxis.toAxis) x.toAxis side = .ok t →
        m.arrays[t.buffer.name]? = some c → Unpacked x side xs f' c) ∧
      ∀ is, (∀ side, ¬ InHalo x side xs is) → f'.get? is = f.get? is := by
  obtain ⟨tl, sl, m₁, f₁, cl, htl, hmovel, hrunl, hm₁, hcl, hr₁, hleft, hkeptl⟩ :=
    hr.unpack_side h hx hfree heven .left
  obtain ⟨tr, sr, m₂, f₂, cr, htr, hmover, hrunr, hm₂, hcr, hr₂, hright, hkeptr⟩ :=
    hr₁.unpack_side h hx hfree heven .right
  have hrun := run_kernel h hbuilt hx (by rw [hfree]; rfl) htl htr hmovel
    hmover (hr.views h hbuilt) hr.masks hrunl hm₁.agrees hrunr hm₂.agrees
  refine ⟨m₂, f₂, hrun, hm₁.agrees.trans hm₂.agrees, hr₂, fun side t c ht hc => ?_,
    fun is his => ?_⟩
  · cases side with
    | left =>
      obtain rfl := Except.ok.inj (ht.symm.trans htl)
      obtain rfl := Option.some.inj (hc.symm.trans hcl)
      intro ks hks
      rw [hkeptr _ (halos_disjoint h hx hfree heven ⟨ks, hks, rfl⟩), hleft ks hks]
    | right =>
      obtain rfl := Except.ok.inj (ht.symm.trans htr)
      -- the left side stores in the array, so the right buffer is still the one at the start
      have hne : t.buffer.name ≠ a.name := by
        rw [name_of_transfer h hr.measures hx htr]
        exact (h.transfer_ne (mem_pairs_of_free hx hfree .right)).1.symm
      rw [hm₁.others _ hne, hc] at hcr
      obtain rfl := Option.some.inj hcr
      exact hright
  · rw [hkeptr is (his .right), hkeptl is (his .left)]

end Kernels

end GridKernel.Halo
