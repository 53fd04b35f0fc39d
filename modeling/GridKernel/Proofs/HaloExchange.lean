import GridKernel.Binary64.Arithmetic
import GridKernel.Proofs.Binary64Closeness
import GridKernel.Proofs.HaloDelivery

/-! Halo exchanges on a periodic chain of owners. Packing on every owner, sending each side's buffer
to the neighbour and unpacking on every owner fills the halos with the neighbours' cells. -/
namespace GridKernel.Halo

/-- The allocated extents of an array whose domain has the given extents. -/
def allocations (a : GridArray) (ns : List Nat) : List Nat :=
  List.zipWith (fun (halo : Extent) n => halo.left.toNat + n + halo.right.toNat) a.halo ns

/-- An array over valid names whose shape is the size of each axis, an integer or a symbol, with
exact allocated extents and pinned indices within them. -/
structure Regular (a : GridArray) (classes : List AxisClass) (ns : List Nat) : Prop where
  valid : ∀ d ∈ a.dims, Identifier.isValid d.name
  distinct : (a.dims.map Dimension.name).Nodup
  shape : a.shape = a.dims.map Dimension.extent
  extent : ∀ e ∈ a.shape, e.IsExtent
  halo : a.halo.length = a.rank
  sizes : ns.length = a.rank
  exact : ∀ n ∈ allocations a ns, n ≤ 2 ^ 53
  pinned : List.Forall₂ (fun c (n : Nat) => ∀ e, c = .pinned e →
    ∃ k : Int64, e = .int k ∧ 0 ≤ k.toInt ∧ k.toInt < n) classes (allocations a ns)

variable {R : Type} [Arithmetic R] [ExactIntegers R] {m : Machine R} {a : GridArray}
  {pins : Pins} {classes : List AxisClass} {ns : List Nat} {slot : String} {xs : List GridAxis}
  {x : GridAxis} {e : Exchange} {d : Dimension} {f : Buffer R}

/-- The axes of a regular array are surveyed. -/
theorem Regular.surveyed (h : Regular a classes ns)
    (hclasses : splitAxes a.dims pins = .ok classes) :
    ∃ slot xs, axes a classes = (slot, xs.map GridAxis.toAxis) ∧ Surveyed a classes slot xs ∧
      xs.map GridAxis.size = ns := by
  obtain ⟨slot, axs, haxes⟩ : ∃ slot axs, axes a classes = (slot, axs) := ⟨_, _, rfl⟩
  have hnamed := named (length_of_splitAxes hclasses) haxes
  have hlength : axs.length = a.rank := by
    rw [GridArray.rank, ← hnamed.dims, List.length_map]
  obtain ⟨hfirst, hsecond, hthird⟩ :=
    columns_zip_zip (hlength.trans h.halo.symm) (h.halo.trans h.sizes.symm)
  obtain ⟨xs, hxs⟩ : ∃ xs : List GridAxis,
      xs = (axs.zip (a.halo.zip ns)).map fun q => ⟨q.1, q.2.1, q.2.2⟩ := ⟨_, rfl⟩
  have haxs : xs.map GridAxis.toAxis = axs := by
    rw [hxs, List.map_map]
    exact hfirst
  have hhalo : xs.map GridAxis.halo = a.halo := by
    rw [hxs, List.map_map]
    exact hsecond
  have hsize : xs.map GridAxis.size = ns := by
    rw [hxs, List.map_map]
    exact hthird
  have hdims : xs.map (fun x => x.dim) = a.dims := by
    rw [← hnamed.dims, ← haxs, List.map_map]
    rfl
  have hcls : xs.map (fun x => x.cls) = classes := by
    rw [← hnamed.cls, ← haxs, List.map_map]
    rfl
  have hallocated : allocations a ns = xs.map GridAxis.allocated := by
    rw [allocations, ← hhalo, ← hsize, List.zipWith_map, List.zipWith_self]
    rfl
  refine ⟨slot, xs, by rw [haxs, haxes], ?_, hsize⟩
  have hshape : a.shape = xs.map fun x => x.dim.extent := by
    rw [h.shape, ← hdims, List.map_map]
    rfl
  have hpinned := h.pinned
  rw [hallocated, ← hcls, List.forall₂_map_left_iff, List.forall₂_map_right_iff,
    List.forall₂_same] at hpinned
  refine
    { named := haxs.symm ▸ hnamed
      halo := hhalo.symm
      shape := hshape
      valid := fun x hx => h.valid _ (hdims ▸ List.mem_map_of_mem hx)
      distinct := ?_
      extent := fun x hx => h.extent _ (hshape ▸ List.mem_map_of_mem hx)
      exact := fun x hx => h.exact _ (hallocated ▸ List.mem_map_of_mem hx)
      pinned := hpinned }
  have hnames := h.distinct
  rw [← hdims, List.map_map] at hnames
  exact hnames

/-- An owner in an exchange along an axis: it has the array, all transfer buffers, and all masks, of
which those of the axis are set. -/
structure Owner (m : Machine R) (a : GridArray) (e : Exchange) (d : Dimension) (f : Buffer R) :
    Prop where
  array : m.arrays[a.name]? = some f
  full : f.Full
  fits : m.Fits a f
  buffers : ∀ q ∈ e.buffers, ∃ c, m.arrays[q.2.2.buffer.name]? = some c ∧ c.Full ∧
    m.Fits q.2.2.buffer c
  masks : ∀ q ∈ e.masks, ∃ v, m.scalars[q.2.2.name]? = some v ∧
    (Arithmetic.isTrue v ↔ q.1.name = d.name)

theorem Owner.ready (h : Surveyed a classes slot xs) (hm : Measures m xs)
    (hbuilt : Built a classes slot xs e) (ho : Owner m a e x.dim f) :
    Ready m a slot xs x f where
  measures := hm
  stores := ⟨ho.array, ho.full, (fits_array_iff h hm).1 ho.fits⟩
  carries := by
    intro p hp t ht
    obtain ⟨q, hq, -, -, ht'⟩ := forall₂_mem_left hbuilt.buffers hp
    obtain rfl := Except.ok.inj (ht'.symm.trans ht)
    obtain ⟨c, hc, hfull, hfits⟩ := ho.buffers q hq
    exact ⟨c, hc, hfull, (fits_iff_dims h hm (mem_pairs.1 hp).1 ht).1 hfits⟩
  masks := by
    intro p hp
    exact ho.masks (p.1.dim, p.2, maskOf p) (by rw [hbuilt.masks]; exact List.mem_map_of_mem hp)

/-- The table of transfers has an entry for each side of a free axis. -/
theorem Built.get? (h : Surveyed a classes slot xs) (hbuilt : Built a classes slot xs e)
    (hx : x ∈ xs) (hfree : x.cls = .free) (side : Side) :
    ∃ t, e.buffers.get? x.dim.name side = some t ∧
      transfer a .own slot (xs.map GridAxis.toAxis) x.toAxis side = .ok t := by
  obtain ⟨q, hq, hdim, hside, -⟩ :=
    forall₂_mem_left hbuilt.buffers (mem_pairs_of_free hx hfree side)
  cases hget : e.buffers.get? x.dim.name side with
  | none =>
    have hnone := List.find?_eq_none.1 (Option.map_eq_none_iff.1 hget) q hq
    simp [hdim, hside] at hnone
  | some t =>
    obtain ⟨q', hfind, rfl⟩ := Option.map_eq_some_iff.1 hget
    have hname := List.find?_some hfind
    obtain ⟨p, hp, hdim', hside', ht⟩ :=
      forall₂_mem_right hbuilt.buffers (List.mem_of_find?_eq_some hfind)
    simp only [hdim', hside', Bool.and_eq_true, beq_iff_eq] at hname
    have hpx : p.1 = x := List.inj_on_of_nodup_map h.distinct (mem_pairs.1 hp).1 hx hname.1
    rw [hpx, hname.2] at ht
    exact ⟨q'.2.2, rfl, ht⟩

/-- The owner before or after another one on a periodic chain. -/
def neighbour {P : Nat} [NeZero P] (p : Fin P) : Side → Fin P
  | .left => p - 1
  | .right => p + 1

/-- An exchange along an axis with halos of one width delivers the cells of the neighbours. -/
theorem exchange_delivers {P : Nat} [NeZero P] {i n : Nat} {w : UInt64} {owners : Fin P → Machine R}
    (hclasses : splitAxes a.dims pins = .ok classes) (hregular : Regular a classes ns)
    (hsizes : ∀ p, List.Forall₂ (fun e (n : Nat) => (owners p).Reads e n) a.shape ns)
    (hdim : a.dims[i]? = some d) (hfree : classes[i]? = some .free)
    (hhalo : a.halo[i]? = some ⟨w, w⟩) (hsize : ns[i]? = some n) :
    ∃ (e : Exchange) (ts : Side → Transfer), exchange a pins (some .own) = .ok e ∧
      (∀ side, e.buffers.get? d.name side = some (ts side)) ∧
      ∀ before : Fin P → Buffer R, (∀ p, Owner (owners p) a e d (before p)) →
        ∃ packed unpacked : Fin P → Machine R,
          (∀ p, (owners p).runKernel e.pack = .done (packed p)) ∧
          (∀ p, (transport (fun side => (ts side).buffer.name) (packed p) fun side =>
            packed (neighbour p side)).runKernel e.unpack = .done (unpacked p)) ∧
          ∀ p, ∃ g, (unpacked p).arrays[a.name]? = some g ∧
            Delivered classes i w.toNat n (before p) (fun side => before (neighbour p side)) g := by
  obtain ⟨slot, xs, haxes, h, hxsSizes⟩ := hregular.surveyed hclasses
  have hmeasures : ∀ p, Measures (owners p) xs := by
    intro p
    have hreads := hsizes p
    rw [h.shape, ← hxsSizes, List.forall₂_map_left_iff, List.forall₂_map_right_iff,
      List.forall₂_same] at hreads
    exact hreads
  obtain ⟨e, he⟩ := exists_exchange h (hmeasures 0) hclasses haxes
  have hbuilt := built hclasses haxes he
  rw [h.dims, List.getElem?_map] at hdim
  obtain ⟨x, hxi, rfl⟩ := Option.map_eq_some_iff.1 hdim
  have hx : x ∈ xs := List.mem_of_getElem? hxi
  have hposition : x.position = i := h.position hxi
  rw [h.cls, List.getElem?_map, hxi] at hfree
  rw [h.halo, List.getElem?_map, hxi] at hhalo
  rw [← hxsSizes, List.getElem?_map, hxi] at hsize
  have hfree : x.cls = .free := Option.some.inj hfree
  have hhalo : x.halo = ⟨w, w⟩ := Option.some.inj hhalo
  have hsize : x.size = n := Option.some.inj hsize
  have heven : x.Even := by rw [GridAxis.Even, hhalo]
  choose ts hget hts using hbuilt.get? h hx hfree
  refine ⟨e, ts, he, hget, fun before howners => ?_⟩
  have hready : ∀ p, Ready (owners p) a slot xs x (before p) :=
    fun p => (howners p).ready h (hmeasures p) hbuilt
  choose packed hpack _ hpackedReady hsent using fun p =>
    ((hready p).idle h).pack h hx hfree heven hbuilt
  have hdelivered : ∀ p, ∃ m' g, Machine.runKernel e.unpack
      (transport (fun side => (ts side).buffer.name) (packed p) fun side =>
        packed (neighbour p side)) = .done m' ∧
      m'.arrays[a.name]? = some g ∧
      Delivered classes i w.toNat n (before p) (fun side => before (neighbour p side)) g := by
    intro p
    choose sent hcarries hcells using fun side =>
      hsent (neighbour p side) (opposite side) (ts (opposite side)) (hts (opposite side))
    obtain ⟨m', g, hrun, hg, hdel⟩ :=
      (hpackedReady p).delivered h hx hfree heven hbuilt hts hcarries hcells
    rw [hposition, hsize, hhalo] at hdel
    exact ⟨m', g, hrun, hg, hdel⟩
  choose unpacked g hunpack hg hdel using hdelivered
  exact ⟨packed, unpacked, hpack, hunpack, fun p => ⟨g p, hg p, hdel p⟩⟩

/-- A line of two cells with one halo cell at each end. -/
def line : GridArray := ⟨"f", .float64, [⟨"x", .spatial⟩], [.size "x"], [⟨1, 1⟩], .external⟩

def lineCells (first second : Int) : Buffer Binary64 :=
  ⟨[4], #[.ofInt 0, .ofInt first, .ofInt second, .ofInt 0]⟩

def lineSlots : Buffer Binary64 := ⟨[2, 1], #[.ofInt 0, .ofInt 0]⟩

/-- An owner of two cells of a line. -/
def lineOwner (first second : Int) : Machine Binary64 where
  arrays := Std.TreeMap.insert (Std.TreeMap.insert (Std.TreeMap.insert ∅ "f"
    (lineCells first second)) "BxL" lineSlots) "BxR" lineSlots
  scalars := Std.TreeMap.insert (Std.TreeMap.insert ∅ "m_xL" (Arithmetic.ofInt 1)) "m_xR"
    (Arithmetic.ofInt 1)
  sizes := Std.TreeMap.insert ∅ "x" 2

theorem line_regular : Regular line [.free] [2] where
  valid := by decide
  distinct := by decide
  shape := rfl
  extent := by
    intro e he
    exact .inr ⟨"x", List.mem_singleton.1 he⟩
  halo := rfl
  sizes := rfl
  exact := by decide
  pinned := .cons (by simp) .nil

theorem lineOwner_reads (first second : Int) :
    List.Forall₂ (fun e (n : Nat) => (lineOwner first second).Reads e n) line.shape [2] :=
  .cons (Machine.Reads.size (n := 2) (by decide) (by simp [lineOwner])) .nil

theorem lineOwner_owner (first second : Int) {e : Exchange}
    (he : exchange line [] (some .own) = .ok e) :
    Owner (lineOwner first second) line e ⟨"x", .spatial⟩ (lineCells first second) where
  array := by simp [lineOwner, line, Std.TreeMap.getElem_insert]
  full := rfl
  fits := by
    have hsize : (lineOwner first second).Evaluates (.size "x") 2 :=
      (Machine.Reads.size (n := 2) (by decide) (by simp [lineOwner])).1
    exact ⟨[.binary .add (.size "x") (.int 2)], rfl,
      .cons (hsize.add (Machine.Evaluates.int (n := 2) (by decide)) (by decide)) .nil⟩
  buffers := by
    have hbuffers : (fun e => e.buffers.map fun q => (q.2.2.buffer.name, q.2.2.buffer.allocation))
        <$> exchange line [] (some .own) =
          .ok [("BxL", .ok [.int 2, .int 1]), ("BxR", .ok [.int 2, .int 1])] := rfl
    rw [he, map_ok] at hbuffers
    intro q hq
    have hmem := List.mem_map_of_mem (f := fun q : Dimension × Side × Transfer =>
      (q.2.2.buffer.name, q.2.2.buffer.allocation)) hq
    rw [Except.ok.inj hbuffers] at hmem
    have hextents : List.Forall₂
        (fun e (n : UInt64) => (lineOwner first second).Evaluates e n.toNat)
        [.int 2, .int 1] [2, 1] :=
      .cons (Machine.Evaluates.int (n := 2) (by decide))
        (.cons (Machine.Evaluates.int (n := 1) (by decide)) .nil)
    refine ⟨lineSlots, ?_, rfl, [.int 2, .int 1], ?_, hextents⟩
    · rcases List.mem_cons.1 hmem with hq | hq
      · obtain ⟨hname, -⟩ := Prod.mk.inj hq
        simp [hname, lineOwner, Std.TreeMap.getElem_insert]
      · obtain ⟨hname, -⟩ := Prod.mk.inj (List.mem_singleton.1 hq)
        simp [hname, lineOwner]
    · rcases List.mem_cons.1 hmem with hq | hq
      · exact (Prod.mk.inj hq).2
      · exact (Prod.mk.inj (List.mem_singleton.1 hq)).2
  masks := by
    have hmasks : Exchange.masks <$> exchange line [] (some .own) =
        .ok [(⟨"x", .spatial⟩, .left, ⟨"m_xL", .int32⟩),
          (⟨"x", .spatial⟩, .right, ⟨"m_xR", .int32⟩)] := rfl
    rw [he, map_ok] at hmasks
    intro q hq
    rw [Except.ok.inj hmasks] at hq
    have htrue : Arithmetic.isTrue (Arithmetic.ofInt 1 : Binary64) = true := rfl
    refine ⟨Arithmetic.ofInt 1, ?_, ?_⟩
    · rcases List.mem_cons.1 hq with rfl | hq
      · simp [lineOwner, Std.TreeMap.getElem_insert]
      · obtain rfl := List.mem_singleton.1 hq
        simp [lineOwner]
    · simp only [htrue, true_iff]
      rcases List.mem_cons.1 hq with rfl | hq
      · rfl
      · obtain rfl := List.mem_singleton.1 hq
        rfl

def lineOwners : Fin 2 → Machine Binary64 :=
  fun p => if p = 0 then lineOwner 1 2 else lineOwner 3 4

theorem exchange_delivers_line :
    ∃ (e : Exchange) (ts : Side → Transfer) (packed unpacked : Fin 2 → Machine Binary64),
      exchange line [] (some .own) = .ok e ∧
      (∀ p, (lineOwners p).runKernel e.pack = .done (packed p)) ∧
      (∀ p, (transport (fun side => (ts side).buffer.name) (packed p) fun side =>
        packed (neighbour p side)).runKernel e.unpack = .done (unpacked p)) ∧
      ∃ g, (unpacked 0).arrays["f"]? = some g ∧ g.get? [0] = some (Binary64.ofInt 4) ∧
        g.get? [1] = some (Binary64.ofInt 1) ∧ g.get? [3] = some (Binary64.ofInt 3) := by
  have hreads : ∀ p, List.Forall₂ (fun e (n : Nat) => (lineOwners p).Reads e n) line.shape [2] := by
    intro p
    match p with
    | 0 => exact lineOwner_reads 1 2
    | 1 => exact lineOwner_reads 3 4
  have hclasses : splitAxes line.dims [] = .ok [.free] := rfl
  have hhalo : line.halo[0]? = some ⟨1, 1⟩ := rfl
  obtain ⟨e, ts, he, -, hdelivers⟩ :=
    exchange_delivers hclasses line_regular hreads rfl rfl hhalo rfl
  obtain ⟨packed, unpacked, hpack, hunpack, hcells⟩ :=
    hdelivers (fun p => if p = 0 then lineCells 1 2 else lineCells 3 4) (by
      intro p
      match p with
      | 0 => exact lineOwner_owner 1 2 he
      | 1 => exact lineOwner_owner 3 4 he)
  obtain ⟨g, hg, hdelivered⟩ := hcells 0
  have hin : ∀ k : Int64, 0 ≤ k.toInt ∧ k.toInt < 4 → Buffer.InBounds g.dims [k] := by
    intro k hk
    rw [hdelivered.dims]
    exact .cons hk .nil
  have hplane : ∀ k : Int64, OnPlane [.free] [k] := fun k => .cons (by simp) .nil
  refine ⟨e, ts, packed, unpacked, he, hpack, hunpack, g, hg, ?_, ?_, ?_⟩
  · exact hdelivered.halo .left [0] (hin 0 (by decide)) (hplane 0) 0 (by decide)
  · refine hdelivered.kept [1] fun _ k hk => ?_
    obtain rfl := Option.some.inj hk
    decide
  · exact hdelivered.halo .right [0] (hin 0 (by decide)) (hplane 0) 0 (by decide)

end GridKernel.Halo
