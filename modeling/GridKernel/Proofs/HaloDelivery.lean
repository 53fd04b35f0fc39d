import GridKernel.Proofs.HaloSlots

/-! Delivery of a halo exchange. On a periodic chain of owners, each owner's halos along the
exchanged axis end up with the cells that its neighbours own, and every other cell is kept. -/
namespace GridKernel.Halo

variable {R : Type} [Arithmetic R] [ExactIntegers R] {m : Machine R} {a : GridArray}
  {classes : List AxisClass} {slot : String} {xs : List GridAxis} {x : GridAxis} {e : Exchange}
  {side : Side} {f g c : Buffer R} {t : Transfer}

/-- A multi-index has the pinned index along every pinned axis. -/
def OnPlane (classes : List AxisClass) (is : List Int64) : Prop :=
  List.Forall₂ (fun c i => ∀ e, c = .pinned e → e = .int i) classes is

/-- The position along an axis of a multi-index with its entry along the exchanged axis replaced. -/
def GridAxis.along (x : GridAxis) (k : Nat) (y : GridAxis) (i : Int64) : Nat :=
  if y.cls.isPinned then 0 else if y.position = x.position then k else i.toInt.toNat

omit [Arithmetic R] [ExactIntegers R] in
theorem Stores.entries (hf : Stores m a xs f) {is : List Int64} (his : Buffer.InBounds f.dims is) :
    List.Forall₂ (fun y (i : Int64) => 0 ≤ i.toInt ∧ i.toInt < y.allocated) xs is := by
  refine (forall₂_trans (map_eq_map_iff_forall₂.1 hf.dims.symm) his).imp ?_
  rintro y i ⟨n, hn, hi⟩
  rwa [hn]

omit [Arithmetic R] [ExactIntegers R] in
/-- A multi-index on the plane with its entry along the exchanged axis replaced is at one position
of the box of every direction and side. -/
theorem exists_position_along (h : Surveyed a classes slot xs) (hx : x ∈ xs)
    (hfree : x.cls = .free) (heven : x.Even) (hf : Stores m a xs f) {is : List Int64}
    (his : Buffer.InBounds f.dims is) (hplane : OnPlane classes is) {k : Nat}
    (hk : k < x.halo.left.toNat) :
    ∃ ks, ∀ direction side, Span.Within (box x direction side xs) ks ∧
      Span.index (box x direction side xs) ks =
        is.set x.position (Int64.ofInt (x.origin direction side + k)) := by
  have hentries := hf.entries his
  have hlength := hentries.length_eq
  rw [OnPlane, h.cls, List.forall₂_map_left_iff] at hplane
  refine ⟨List.zipWith (x.along k) xs is, fun direction side => ⟨?_, ?_⟩⟩
  · rw [Span.Within, box, List.forall₂_map_left_iff, List.forall₂_iff_get]
    refine ⟨by simp [hlength], fun n hn hn' => ?_⟩
    have hn'' : n < is.length := hlength ▸ hn
    have hentry := hentries.get hn hn''
    have hpinned := hplane.get hn hn''
    simp only [List.get_eq_getElem] at hentry hpinned
    simp only [List.get_eq_getElem, List.getElem_zipWith]
    unfold GridAxis.along GridAxis.span
    cases hcls : xs[n].cls with
    | pinned e =>
      rw [hpinned e hcls]
      simp [AxisClass.isPinned]
    | free =>
      by_cases hpos : xs[n].position = x.position
      · simpa [hpos, AxisClass.isPinned, heven.width] using hk
      · simp only [AxisClass.isPinned, hpos, if_false, Bool.false_eq_true]
        omega
  · refine List.ext_getElem (by simp [Span.index, box, hlength]) fun n hn hn' => ?_
    have hn'' : n < is.length := by simpa using hn'
    have hlt : n < xs.length := hlength ▸ hn''
    have hentry := hentries.get hlt hn''
    have hpinned := hplane.get hlt hn''
    simp only [List.get_eq_getElem] at hentry hpinned
    have hposition : xs[n].position = n := h.position (List.getElem?_eq_getElem hlt)
    simp only [Span.index, box, List.getElem_zipWith, List.getElem_map, List.getElem_set]
    unfold GridAxis.along GridAxis.span
    cases hcls : xs[n].cls with
    | pinned e =>
      have hne : x.position ≠ n := by
        intro heq
        have hxn := h.getElem_position hx
        rw [heq, List.getElem?_eq_getElem hlt] at hxn
        rw [Option.some.inj hxn, hfree] at hcls
        cases hcls
      rw [hpinned e hcls, if_neg hne]
      simp [AxisClass.isPinned]
    | free =>
      by_cases hpos : x.position = n
      · simp [hposition, hpos, AxisClass.isPinned]
      · have hpos' : ¬ n = x.position := fun heq => hpos heq.symm
        simp only [AxisClass.isPinned, hposition, hpos, hpos', if_false, Bool.false_eq_true]
        rw [Int.zero_add, Int.toNat_of_nonneg hentry.1, Int64.ofInt_toInt]

omit [Arithmetic R] [ExactIntegers R] in
/-- A multi-index in a halo is on the plane. -/
theorem InHalo.onPlane (h : Surveyed a classes slot xs) (hx : x ∈ xs) (heven : x.Even)
    {is : List Int64} (his : InHalo x side xs is) : OnPlane classes is := by
  have hin := (Span.exists_index_iff (box_exact h heven hx)).1 his
  rw [box, List.forall₂_map_left_iff] at hin
  rw [OnPlane, h.cls, List.forall₂_map_left_iff]
  refine List.forall₂_iff_zip.2 ⟨hin.length_eq, fun {y i} hyi e he => ?_⟩
  obtain ⟨k, rfl, -, -⟩ := h.pinned y (List.of_mem_zip hyi).1 e he
  have hi := List.forall₂_zip hin hyi
  simp only [GridAxis.span, he] at hi
  rw [Int64.toInt_inj.1 (show k.toInt = i.toInt by omega)]

/-- The other side of an axis. -/
def opposite : Side → Side
  | .left => .right
  | .right => .left

/-- A machine after the messages of its neighbours: its buffer of each side receives the neighbour's
buffer of the opposite side. -/
def transport (names : Side → String) (m : Machine R) (neighbour : Side → Machine R) : Machine R :=
  (m.receive (names .left) (neighbour .left) (names .right)).receive (names .right)
    (neighbour .right) (names .left)

omit [Arithmetic R] [ExactIntegers R] in
theorem box_extents_even (heven : x.Even) (side other : Side) :
    (box x .pack side xs).map Span.extent = (box x .pack other xs).map Span.extent := by
  simp only [box, List.map_map]
  apply List.map_congr_left
  intro y _
  simp only [Function.comp_apply, GridAxis.span, heven.width]
  split
  · rfl
  · rfl
  · split <;> rfl

omit [Arithmetic R] [ExactIntegers R] in
/-- A received buffer has the sender's first slot as its second. -/
theorem Carries.received {sender : Machine R} {other : Side} {t' : Transfer} {c' : Buffer R}
    (heven : x.Even) (hc : Carries m x side xs t c) (hc' : Carries sender x other xs t' c') :
    m.Rebinds (m.receive t.buffer.name sender t'.buffer.name) t.buffer.name (c.receive c') ∧
      Carries (m.receive t.buffer.name sender t'.buffer.name) x side xs t (c.receive c') ∧
      ∀ is, (c.receive c').get? (Direction.unpack.slot :: is) =
        c'.get? (Direction.pack.slot :: is) := by
  have hrebinds := Machine.Rebinds.receive hc.array hc'.array
  have hsame : c'.dims = c.dims := by
    apply List.map_injective_iff.2 fun _ _ => UInt64.toNat_inj.1
    rw [hc.dims, hc'.dims, box_extents_even heven side other]
  obtain ⟨n, dims, hdims⟩ : ∃ n dims, c.dims = n :: dims := by
    cases hnil : c.dims with
    | nil =>
      have hlength := congrArg List.length hc.dims
      simp [hnil] at hlength
    | cons n dims => exact ⟨n, dims, rfl⟩
  have hn : n.toNat = 2 := by
    have hhead := hc.dims
    rw [hdims, List.map_cons] at hhead
    exact (List.cons.inj hhead).1
  exact ⟨hrebinds, ⟨hrebinds.array, hc.full.receive hc'.full hn hdims hsame, hc.dims⟩,
    Buffer.get?_receive hc.full hc'.full hn hdims hsame⟩

/-- An owner stays ready when it receives the buffers of its neighbours. -/
theorem Ready.received (h : Surveyed a classes slot xs) (hr : Ready m a slot xs x f) (hx : x ∈ xs)
    (hfree : x.cls = .free) (heven : x.Even) {ts : Side → Transfer}
    (hts : ∀ side, transfer a .own slot (xs.map GridAxis.toAxis) x.toAxis side = .ok (ts side))
    {neighbour : Side → Machine R} {sent : Side → Buffer R}
    (hsent : ∀ side,
      Carries (neighbour side) x (opposite side) xs (ts (opposite side)) (sent side)) :
    Ready (transport (fun side => (ts side).buffer.name) m neighbour) a slot xs x f ∧
      ∀ side, ∃ c, (transport (fun side => (ts side).buffer.name) m neighbour).arrays[
          (ts side).buffer.name]? = some c ∧
        ∀ is, c.get? (Direction.unpack.slot :: is) =
          (sent side).get? (Direction.pack.slot :: is) := by
  obtain ⟨cl, hcl⟩ := hr.carries _ (mem_pairs_of_free hx hfree .left) _ (hts .left)
  obtain ⟨hml, hcl', hleft⟩ := hcl.received heven (hsent .left)
  have hrl := hr.rebinds_transfer h (mem_pairs_of_free hx hfree .left) (hts .left) hml hcl'
  obtain ⟨cr, hcr⟩ := hrl.carries _ (mem_pairs_of_free hx hfree .right) _ (hts .right)
  obtain ⟨hmr, hcr', hright⟩ := hcr.received heven (hsent .right)
  refine ⟨hrl.rebinds_transfer h (mem_pairs_of_free hx hfree .right) (hts .right) hmr hcr',
    fun side => ?_⟩
  cases side with
  | left =>
    refine ⟨_, (hcl'.rebinds hmr fun heq => ?_).array, hleft⟩
    rw [name_of_transfer h hr.measures hx (hts .left),
      name_of_transfer h hr.measures hx (hts .right)] at heq
    cases pair_of_name h (mem_pairs_of_free hx hfree .left) (mem_pairs_of_free hx hfree .right) heq
  | right => exact ⟨_, hmr.array, hright⟩

/-- The first index that a side sends along an axis with halos of width `w` and a domain of `n`
cells, and the first index of the halo of a side. -/
def start (w n : Nat) : Direction → Side → Nat
  | .pack, .left => w
  | .pack, .right => n
  | .unpack, .left => 0
  | .unpack, .right => w + n

omit [Arithmetic R] [ExactIntegers R] in
theorem GridAxis.Even.origin (heven : x.Even) (direction : Direction) (side : Side) :
    x.origin direction side = start x.halo.left.toNat x.size direction side := by
  have hwidth : x.halo.right.toNat = x.halo.left.toNat := (congrArg UInt64.toNat heven).symm
  cases direction <;> cases side <;> simp only [GridAxis.origin, start] <;> omega

/-- What an exchange leaves at an owner whose array held `f`: the halo of each side along axis `i`
holds the cells that the neighbour's array held at the opposite end of its domain, and all other
cells are kept. -/
structure Delivered (classes : List AxisClass) (i w n : Nat) (f : Buffer R)
    (neighbour : Side → Buffer R) (g : Buffer R) : Prop where
  dims : g.dims = f.dims
  halo : ∀ side is, Buffer.InBounds g.dims is → OnPlane classes is → ∀ j < w,
    g.get? (is.set i (Int64.ofInt (start w n .unpack side + j : Nat))) =
      (neighbour side).get? (is.set i (Int64.ofInt (start w n .pack (opposite side) + j : Nat)))
  kept : ∀ is, (OnPlane classes is → ∀ k, is[i]? = some k → w ≤ k.toInt ∧ k.toInt < w + n) →
    g.get? is = f.get? is

/-- Unpacking what the neighbours have packed delivers their cells. -/
theorem Ready.delivered (h : Surveyed a classes slot xs) (hr : Ready m a slot xs x f)
    (hx : x ∈ xs) (hfree : x.cls = .free) (heven : x.Even) (hbuilt : Built a classes slot xs e)
    {ts : Side → Transfer}
    (hts : ∀ side, transfer a .own slot (xs.map GridAxis.toAxis) x.toAxis side = .ok (ts side))
    {neighbour : Side → Machine R} {cells sent : Side → Buffer R}
    (hsent : ∀ side, Carries (neighbour side) x (opposite side) xs (ts (opposite side)) (sent side))
    (hpacked : ∀ side, Packed x (opposite side) xs (cells side) (sent side)) :
    ∃ m' g, Machine.run e.unpack.body
        (transport (fun side => (ts side).buffer.name) m neighbour).idle = .done m' ∧
      m'.arrays[a.name]? = some g ∧
      Delivered classes x.position x.halo.left.toNat x.size f cells g := by
  obtain ⟨hreceived, hslots⟩ := hr.received h hx hfree heven hts hsent
  obtain ⟨m', g, hrun, -, hg, hhalo, hkept⟩ :=
    (hreceived.idle h).unpack h hx hfree heven hbuilt
  have hdims : g.dims = f.dims := by
    apply List.map_injective_iff.2 fun _ _ => UInt64.toNat_inj.1
    rw [hg.stores.dims, hr.stores.dims]
  refine ⟨m', g, hrun, hg.stores.array, hdims, ?_, ?_⟩
  · intro side is his hplane j hj
    obtain ⟨ks, hks⟩ := exists_position_along h hx hfree heven hg.stores his hplane hj
    obtain ⟨hwithin, hindex⟩ := hks .unpack side
    obtain ⟨hwithin', hindex'⟩ := hks .pack (opposite side)
    obtain ⟨c, hc, hslot⟩ := hslots side
    rw [heven.origin] at hindex hindex'
    have hstored := hhalo side (ts side) c (hts side) hc ks hwithin
    have hsource := hpacked side ks hwithin'
    rw [hindex] at hstored
    rw [hindex'] at hsource
    rw [Int.natCast_add, Int.natCast_add, hstored, hslot, hsource]
  · intro is his
    apply hkept
    rintro side ⟨ks, hks, hindex⟩
    obtain ⟨k, hk, hlow, hhigh⟩ := entry_of_box h hx hfree heven hks hindex
    have hinside := his (InHalo.onPlane h hx heven ⟨ks, hks, hindex⟩) k hk
    rw [heven.origin] at hlow hhigh
    rw [heven.width] at hhigh
    cases side <;> simp only [start] at hlow hhigh <;> omega

end GridKernel.Halo
