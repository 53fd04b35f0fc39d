import Mathlib.Data.List.Flatten
import GridKernel.Proofs.Binary64Closeness
import GridKernel.Proofs.GatherLayout
import GridKernel.Proofs.Moves

/-! Gathering a region. A run of the gather kernel copies the cells of the region and changes
nothing else, or stops at a cell outside the array. -/
namespace GridKernel.Region

variable {R : Type} [Arithmetic R] [ExactIntegers R] {m : Machine R} {a : GridArray}
  {classes : List AxisClass} {name : String} {axes : List Axis} {src dst : Buffer R}
  {spans : List Span}

/-- A machine binds the buffers of a gather and the span of the region along every axis: the value
of the first source index and that of the destination's extent. -/
structure Bound (m : Machine R) (a : GridArray) (name : String) (axes : List Axis)
    (src dst : Buffer R) (spans : List Span) : Prop where
  source : m.arrays[a.name]? = some src
  target : m.arrays[name]? = some dst
  sourceFull : src.Full
  targetFull : dst.Full
  sourceFits : m.idle.Fits a src
  targetFits : dst.dims.map UInt64.toNat = spans.map Span.extent
  spans : List.Forall₂ (fun x s => m.idle.Evaluates x.origin s.origin ∧
    m.idle.Evaluates x.extent s.extent) axes spans

/-- One axis of the move that a gather makes. -/
def lane (x : Axis) (s : Span) : Lane := ⟨s, x.targetIndex, x.sourceIndex, x.loop?⟩

/-- A pinned axis has one cell, at the value of its index, and no loop. -/
theorem valid_pinned {d : Dimension} {n : String} {e : Expr} (he : Machine.ReadsScalars e)
    {s : Span} (hs : s.Exact) (horigin : m.Evaluates e s.origin)
    (hextent : m.Evaluates (.int 1) s.extent) :
    m.Valid (lane ⟨d, .incremented n d (.int 0) (.int 1), e, true⟩ s) := by
  have hone : (s.extent : Int) = 1 :=
    hextent.unique (Machine.Evaluates.int (m := m) (n := 1) (by decide))
  have hfirst : ∀ k < s.extent, k = 0 := fun k hk => by omega
  refine ⟨⟨fun _ => by simp only [lane]; omega, ?_⟩, hs, by simp only [lane]; omega, ?_, ?_, ?_⟩
  · intro h hloop
    cases hloop
  · intro h hloop
    cases hloop
  · intro m' k hm' hk hon
    obtain rfl := hfirst k hk
    exact Machine.Evaluates.int (n := 0) (by decide)
  · intro m' k hm' hk hon
    obtain rfl := hfirst k hk
    simpa [lane, Axis.sourceIndex] using horigin.congr (he.eval_congr hm'.1)

/-- A free axis has a loop over its extent, which counts from zero in the destination and from the
offset in the source. -/
theorem valid_free {d : Dimension} {n o : String} {s : Span} (hs : s.Exact)
    (horigin : m.Evaluates (.scalar ⟨o, .int32⟩) s.origin)
    (hextent : m.Evaluates (.size n) s.extent) :
    m.Valid (lane ⟨d, .incremented n d (.int 0) (.int 1), .scalar ⟨o, .int32⟩, false⟩ s) := by
  have hbounded := hextent.bounded
  have hsize : ∀ m', m.Agrees m' → m'.Evaluates (.size n) s.extent :=
    fun m' hm' => hextent.congr (by simp [Machine.eval, hm'.2])
  have hstart : ∀ m', m.Agrees m' → m'.Evaluates (.scalar ⟨o, .int32⟩) s.origin :=
    fun m' hm' => horigin.congr (by simp [Machine.eval, hm'.1])
  have hloop : Axis.loop? ⟨d, .incremented n d (.int 0) (.int 1), .scalar ⟨o, .int32⟩, false⟩ =
      some ⟨d, .upTo (.size n), [.incremented n d (.int 0) (.int 1)], .parallel⟩ := rfl
  refine ⟨⟨fun hnone => ?_, fun h hsome => ?_⟩, hs, by simp only [lane]; omega, fun h hsome => ?_,
    ?_, ?_⟩
  · cases hloop.symm.trans hnone
  · obtain rfl := Option.some.inj (hloop.symm.trans hsome)
    exact ⟨_, rfl⟩
  · obtain rfl := Option.some.inj (hloop.symm.trans hsome)
    refine Machine.makes_upTo rfl ?_ hsize
    intro e' he'
    obtain rfl := List.mem_singleton.1 he'
    exact ⟨d, rfl⟩
  · intro m' k hm' hk hon
    simp only [lane] at hk
    have hbinds := hon _ hloop
    exact Machine.Evaluates.dim (by omega) (hbinds (n, Int64.ofInt k) (by
      simp [LoopHead.bindings, Dimension.incremented]))
  · intro m' k hm' hk hon
    simp only [lane] at hk ⊢
    have hbinds := hon _ hloop
    have hd : m'.Evaluates (.dim d) k := Machine.Evaluates.dim (by omega)
      (hbinds (d.name, Int64.ofInt k) (by simp [LoopHead.bindings]))
    have hsum := hd.add (hstart m' hm') (by have := hs k hk; omega)
    rwa [Int.add_comm] at hsum

theorem valid_lane (hpins : PinsScalars classes) {d : Dimension} {c : AxisClass}
    (hc : c ∈ classes) {x : Axis} (hlaid : LaidOut d c x) {s : Span}
    (horigin : m.Evaluates x.origin s.origin) (hextent : m.Evaluates x.extent s.extent)
    (hexact : s.origin + s.extent ≤ 2 ^ 53) : m.Valid (lane x s) := by
  have ho := horigin.bounded
  have hs : s.Exact := fun k hk => by omega
  cases hlaid with
  | pinned n e => exact valid_pinned (hpins e hc) hs horigin hextent
  | free n o => exact valid_free hs horigin hextent

theorem loops_nodup (h : Planned a classes name axes) (hlength : a.dims.length = classes.length)
    (hdims : (a.dims.map Dimension.name).Nodup) :
    ((axes.reverse.filterMap Axis.loop?).flatMap LoopHead.bound).Nodup := by
  rw [List.filterMap_eq_flatMap_toList, List.flatMap_assoc]
  apply nodup_flatMap_of_sublist (f := fun x => x.source.name) (g := fun x => x.target.name)
  · intro x _
    cases hloop : x.loop? with
    | none => exact List.nil_sublist _
    | some head =>
      obtain rfl := Axis.loop?_eq_some hloop
      simp [LoopHead.bound]
  · rw [List.map_reverse, List.map_reverse]
    refine List.nodup_append.2 ⟨?_, ?_, ?_⟩
    · rw [List.nodup_reverse]
      rwa [← h.sources hlength, List.map_map] at hdims
    · have htargets := h.nodup_targets
      rw [List.map_map] at htargets
      rwa [List.nodup_reverse]
    · rintro source hsource target htarget rfl
      obtain ⟨x, hx, rfl⟩ := List.mem_map.1 (List.mem_reverse.1 hsource)
      obtain ⟨y, hy, heq⟩ := List.mem_map.1 (List.mem_reverse.1 htarget)
      have hdrawn : y.target.name ∈ axes.flatMap Axis.names :=
        List.mem_flatMap.2 ⟨y, hy, by simp [Axis.names]⟩
      apply h.fresh _ (List.mem_cons_of_mem _ hdrawn)
      have hdim : x.source ∈ a.dims := by
        rw [← h.sources hlength]
        exact List.mem_map_of_mem hx
      rw [heq, GridArray.namesInUse, List.mem_cons, List.mem_append]
      exact .inr (.inl (List.mem_map_of_mem hdim))

theorem lanes_maps {axes : List Axis} {spans : List Span} (h : axes.length = spans.length) :
    (List.zipWith lane axes spans).map Lane.loop? = axes.map Axis.loop? ∧
    (List.zipWith lane axes spans).map Lane.near = axes.map Axis.targetIndex ∧
    (List.zipWith lane axes spans).map Lane.far = axes.map Axis.sourceIndex ∧
    (List.zipWith lane axes spans).map Lane.toSpan = spans := by
  induction axes generalizing spans with
  | nil => cases spans <;> simp_all
  | cons x axes ih =>
    cases spans with
    | nil => cases h
    | cons s spans =>
      obtain ⟨hloop, hnear, hfar, hspan⟩ := ih (by simpa using h)
      refine ⟨?_, ?_, ?_, ?_⟩
      · rw [List.zipWith_cons_cons, List.map_cons, hloop, List.map_cons, lane]
      · rw [List.zipWith_cons_cons, List.map_cons, hnear, List.map_cons, lane]
      · rw [List.zipWith_cons_cons, List.map_cons, hfar, List.map_cons, lane]
      · rw [List.zipWith_cons_cons, List.map_cons, hspan, lane]

/-- The loops of the move are those over the free axes. -/
theorem heads_lanes {axes : List Axis} {spans : List Span} (h : axes.length = spans.length) :
    Lane.heads (List.zipWith lane axes spans) = axes.reverse.filterMap Axis.loop? := by
  have hmap {α : Type} (f : α → Option LoopHead) (xs : List α) :
      xs.reverse.filterMap f = (xs.map f).reverse.filterMap id := by
    rw [← List.map_reverse, List.filterMap_map]
    rfl
  rw [Lane.heads, hmap, (lanes_maps h).1, ← hmap]

theorem within_lanes {axes : List Axis} {spans : List Span} (h : axes.length = spans.length)
    (ks : List Nat) :
    Lane.Within (List.zipWith lane axes spans) ks ↔ Span.Within spans ks := by
  obtain ⟨-, -, -, htoSpans⟩ := lanes_maps h
  rw [← htoSpans, Span.Within, List.forall₂_map_left_iff, Lane.Within, htoSpans]

theorem Bound.valid_lanes (hb : Bound m a name axes src dst spans)
    (h : Planned a classes name axes) (hpins : PinsScalars classes)
    (hexact : ∀ s ∈ spans, s.origin + s.extent ≤ 2 ^ 53) :
    ∀ l ∈ List.zipWith lane axes spans, m.idle.Valid l := by
  intro l hl
  rw [← List.map_uncurry_zip_eq_zipWith] at hl
  obtain ⟨⟨x, s⟩, hxs, rfl⟩ := List.mem_map.1 hl
  obtain ⟨hx, hs⟩ := List.of_mem_zip hxs
  obtain ⟨d, -, c, hc, hlaid⟩ := h.laidOut_of_mem hx
  obtain ⟨horigin, hextent⟩ := List.forall₂_zip hb.spans hxs
  exact valid_lane hpins hc hlaid horigin hextent (hexact s hs)

omit [ExactIntegers R] in
theorem Bound.fits_destination (hb : Bound m a name axes src dst spans) :
    m.idle.Fits (destination a name axes) dst := by
  refine ⟨axes.map Axis.extent, ?_, ?_⟩
  · apply GridArray.allocation_eq
    · simp [destination, GridArray.rank]
    · intro i e he
      rw [List.getElem?_map] at he
      obtain ⟨x, hx, rfl⟩ := Option.map_eq_some_iff.1 he
      have hhalo : (destination a name axes).halo[i]? = some .none := by
        rw [destination, List.getElem?_map, hx]
        rfl
      have hsize : (destination a name axes).shape[i]? = some x.extent := by simp [destination, hx]
      exact GridArray.allocated_bare hhalo hsize
  · rw [List.forall₂_map_left_iff]
    have hdims := map_eq_map_iff_forall₂.1 hb.targetFits.symm
    refine (forall₂_trans hb.spans hdims).imp ?_
    rintro x n ⟨s, ⟨-, hextent⟩, hs⟩
    rwa [← hs]

omit [ExactIntegers R] in
/-- The views of both arrays go through, so the gather statements run as their nest of loops. -/
theorem Bound.run_statements (hb : Bound m a name axes src dst spans) :
    Machine.run (statements a (destination a name axes) axes) m.idle =
      Machine.run ((Stmt.assign (.access (destination a name axes) (axes.map Axis.targetIndex))
        (.access a (axes.map Axis.sourceIndex))).nest (axes.reverse.filterMap Axis.loop?))
        m.idle := by
  have hviews : ∀ b ∈ [a, destination a name axes], ∃ c, m.idle.arrays[b.name]? = some c ∧
      m.idle.Fits b c := by
    intro b hb'
    simp only [List.mem_cons, List.not_mem_nil, or_false] at hb'
    rcases hb' with rfl | rfl
    · exact ⟨src, hb.source, hb.sourceFits⟩
    · exact ⟨dst, hb.target, hb.fits_destination⟩
  exact (Machine.runAll_views [a, destination a name axes] [_] hviews).trans
    (Machine.runAll_singleton _ _)

/-- A run of the gather statements copies the cell at every position of the spans, or stops at a
position outside the source. -/
theorem ends_gather (h : Planned a classes name axes) (hlength : a.dims.length = classes.length)
    (hdims : (a.dims.map Dimension.name).Nodup) (hpins : PinsScalars classes)
    (hb : Bound m a name axes src dst spans) (hexact : ∀ s ∈ spans, s.origin + s.extent ≤ 2 ^ 53) :
    (Machine.run (statements a (destination a name axes) axes) m.idle).Ends
      (fun m' => ∃ c moves, m.idle.Rebinds m' name c ∧ src.Moved dst c moves ∧
        ∀ p, p ∈ moves ↔ ∃ ks, Span.Within spans ks ∧
          p = (Span.index (spans.map Span.fromZero) ks, Span.index spans ks))
      (fun e _ => ∃ ks, Span.Within spans ks ∧
        ¬ Buffer.InBounds src.dims (Span.index spans ks) ∧
        e = .cause (Machine.outside a.name src (Span.index spans ks))) := by
  have hspans : axes.length = spans.length := hb.spans.length_eq
  obtain ⟨-, hnears, hfars, htoSpans⟩ := lanes_maps hspans
  have hvalid := hb.valid_lanes h hpins hexact
  have hheads := heads_lanes hspans
  have hwithin := within_lanes hspans
  have htes : ∀ m' ks, m.idle.Agrees m' → Lane.Within (List.zipWith lane axes spans) ks →
      List.Forall₂ (Lane.On m') (List.zipWith lane axes spans) ks →
      m'.evalIndices (axes.map Axis.targetIndex) =
        .ok (Span.index (spans.map Span.fromZero) ks) := by
    intro m' ks hm' hks hon
    have heval := Machine.evalIndices_near hvalid hm' hks hon
    rw [hnears] at heval
    rw [heval, ← htoSpans, List.map_map, htoSpans]
    rfl
  have hses : ∀ m' ks, m.idle.Agrees m' → Lane.Within (List.zipWith lane axes spans) ks →
      List.Forall₂ (Lane.On m') (List.zipWith lane axes spans) ks →
      m'.evalIndices (axes.map Axis.sourceIndex) = .ok (Span.index spans ks) := by
    intro m' ks hm' hks hon
    have heval := Machine.evalIndices_far hvalid hm' hks hon
    rwa [hfars, htoSpans] at heval
  have hnear : ∀ s ∈ spans.map Span.fromZero, s.Exact := by
    intro z hz
    obtain ⟨s, hs, rfl⟩ := List.mem_map.1 hz
    obtain ⟨x, -, -, hextent⟩ := forall₂_mem_right hb.spans hs
    have hbounded := hextent.bounded
    exact Span.Exact.fromZero (by omega)
  rw [hb.run_statements, ← hheads]
  refine (Machine.ends_moves (m := m.idle) (B := destination a name axes) hb.source hb.target
    h.name_ne hb.sourceFull hb.targetFull
    (fun l hl => (hvalid l hl).counts) (fun l hl => (hvalid l hl).makes)
    (by rw [hheads]; exact loops_nodup h hlength hdims) htes hses ?_ ?_).imp ?_ ?_
  · intro ks ks' hks hks' heq
    rw [hwithin, ← Span.within_fromZero] at hks hks'
    exact Span.index_inj hnear hks hks' heq
  · intro ks hks
    rw [hwithin, ← Span.within_fromZero] at hks
    exact (Span.inside_fromZero hb.targetFits).inBounds hnear hks
  · rintro m' ⟨c, moves, hm', hmoved, hmem⟩
    exact ⟨c, moves, hm', hmoved, fun p => by simpa [hwithin] using hmem p⟩
  · rintro e m' ⟨ks, hks, hout, rfl⟩
    exact ⟨ks, (hwithin ks).1 hks, hout, rfl⟩

/-- The cell of the source that a cell of the destination is copied from. -/
def sourceIndices (spans : List Span) (is : List Int64) : List Int64 :=
  List.zipWith (fun s i => Int64.ofInt (s.origin + i.toInt)) spans is

theorem sourceIndices_position {spans : List Span} {ks : List Nat}
    (hks : Span.Within spans ks) (hexact : ∀ s ∈ spans, s.extent ≤ 2 ^ 53) :
    sourceIndices spans (ks.map fun (k : Nat) => Int64.ofInt k) = Span.index spans ks := by
  induction hks with
  | nil => rfl
  | @cons s k spans ks hk _ ih =>
    have hs := hexact s (by simp)
    have ih := ih fun s hs => hexact s (by simp [hs])
    rw [sourceIndices] at ih ⊢
    rw [List.map_cons, List.zipWith_cons_cons, ih, toInt_ofInt (by omega), Span.index_cons]

/-- The gather kernel is built when no name denotes two entities. Its run copies the selected region
when that lies in the source, and otherwise, if it has a cell at all, stops at a cell out of bounds.
-/
theorem gather_region {pins : Pins} (hclasses : splitAxes a.dims pins = .ok classes)
    (hplan : plan a classes = (name, axes)) (hdims : (a.dims.map Dimension.name).Nodup)
    (hpins : PinsScalars classes) :
    (PinsApart a classes → ∃ k, gather a pins = .ok k) ∧
    ∀ k, gather a pins = .ok k →
      ∀ (m : Machine R) src dst spans, Bound m a name axes src dst spans →
      (Span.Inside src.dims spans → ∃ m' c, Machine.runKernel k m = .done m' ∧
        m.Rebinds m' name c ∧ m'.arrays[a.name]? = some src ∧ c.dims = dst.dims ∧
        ∀ is, Buffer.InBounds dst.dims is →
          ∃ x, src.get? (sourceIndices spans is) = some x ∧ c.get? is = some x) ∧
      ((∀ s ∈ spans, 0 < s.extent ∧ s.origin + s.extent ≤ 2 ^ 53) → ¬ Span.Inside src.dims spans →
        ∃ cause, (Machine.runKernel k m).fault? = some (.cause cause) ∧
          cause.report.code = .indexOutOfBounds) := by
  have h := planned hplan
  have hgather : gather a pins = gatherSplit a classes := by rw [gather, hclasses, ok_bind]
  rw [hgather]
  refine ⟨fun hapart => Planned.gatherSplit_ok hplan h hpins hapart, ?_⟩
  intro k hk m src dst spans hb
  have hbody := Planned.body_of_gatherSplit hplan h hk
  have hextents : ∀ s ∈ spans, s.origin.natAbs ≤ 2 ^ 53 ∧ s.extent ≤ 2 ^ 53 := by
    intro s hs
    obtain ⟨x, -, horigin, hextent⟩ := forall₂_mem_right hb.spans hs
    have ho := horigin.bounded
    have he := hextent.bounded
    omega
  have hlength := (length_of_splitAxes hclasses).symm
  rw [Machine.runKernel, hbody]
  constructor
  · intro hinside
    have hexact : ∀ s ∈ spans, s.origin + s.extent ≤ 2 ^ 53 := by
      intro s hs
      obtain ⟨n, hn, -, hs⟩ := forall₂_mem_right hinside hs
      have hfits := hb.sourceFits.extent_le n hn
      omega
    have hspansExact : ∀ s ∈ spans, s.Exact := fun s hs k hk => by
      have he := hextents s hs
      have hs := hexact s hs
      omega
    obtain ⟨m', hdone, c, moves, hm', hmoved, hmem⟩ :=
      (ends_gather h hlength hdims hpins hb hexact).exists_done (by
        rintro e m' ⟨ks, hks, hout, -⟩
        exact hout (hinside.inBounds hspansExact hks))
    have hsource : m'.arrays[a.name]? = some src := (hm'.others _ h.name_ne).trans hb.source
    refine ⟨m', c, hdone, ⟨hm'.agrees, hm'.array, hm'.others⟩, hsource, hmoved.dims, ?_⟩
    intro is his
    obtain ⟨ks, hks, rfl⟩ := Span.exists_position hb.targetFits his
    rw [sourceIndices_position hks fun s hs => (hextents s hs).2]
    have hmoves := hmoved.moved _ ((hmem _).2 ⟨ks, hks, rfl⟩)
    rwa [Span.index_fromZero hks.length_eq] at hmoves
  · intro hexact houtside
    have hspansExact : ∀ s ∈ spans, s.Exact := fun s hs k hk => by
      have he := hextents s hs
      have hs := hexact s hs
      omega
    have hrank : src.dims.length = spans.length := by
      rw [hb.sourceFits.length_dims, GridArray.rank, ← h.sources hlength, List.length_map,
        hb.spans.length_eq]
    obtain ⟨e, hfault, ks, -, -, rfl⟩ :=
      (ends_gather h hlength hdims hpins hb fun s hs => (hexact s hs).2).exists_fault (by
        rintro m' ⟨c, moves, hm', hmoved, hmem⟩
        obtain ⟨ks, hks, hout⟩ := Span.exists_not_inBounds hrank hspansExact
          (fun s hs => (hexact s hs).1) houtside
        obtain ⟨x, hx, -⟩ := hmoved.moved _ ((hmem _).2 ⟨ks, hks, rfl⟩)
        rw [Buffer.get?_eq_none hout] at hx
        cases hx)
    exact ⟨_, hfault, rfl⟩

/-- An array of two columns. -/
def columns : GridArray :=
  ⟨"f", .float64, [⟨"x", .spatial⟩, ⟨"y", .spatial⟩], [.size "x", .int 2], [.none, .none],
    .external⟩

def columnIndex : Scalar := ⟨"k", .int32⟩

def columnAxes : List Axis :=
  [⟨⟨"x", .spatial⟩, .incremented "dst_x" ⟨"x", .spatial⟩ (.int 0) (.int 1),
      .scalar ⟨"ox", .int32⟩, false⟩,
    ⟨⟨"y", .spatial⟩, .incremented "dst_y" ⟨"y", .spatial⟩ (.int 0) (.int 1),
      .scalar columnIndex, true⟩]

def columnCells : Buffer Binary64 :=
  ⟨[3, 2], #[.ofInt 0, .ofInt 1, .ofInt 2, .ofInt 3, .ofInt 4, .ofInt 5]⟩

/-- A machine that gathers two cells of column 1 from row `first` on. -/
def columnMachine (first : Int64) : Machine Binary64 where
  arrays := Std.TreeMap.insert (Std.TreeMap.insert ∅ "f" columnCells) "dst"
    ⟨[2, 1], Array.replicate 2 Binary64.zero⟩
  scalars := Std.TreeMap.insert (Std.TreeMap.insert ∅ "k" (Arithmetic.ofInt 1)) "ox"
    (Arithmetic.ofInt first)
  sizes := Std.TreeMap.insert (Std.TreeMap.insert ∅ "x" 3) "dst_x" 2

open Machine in
theorem bound_column (first : Int64) (h : first.toInt.natAbs ≤ 2 ^ 53) :
    Bound (columnMachine first) columns "dst" columnAxes columnCells
      ⟨[2, 1], Array.replicate 2 Binary64.zero⟩ [⟨first.toInt, 2⟩, ⟨1, 1⟩] where
  source := by simp [columnMachine, columns, Std.TreeMap.getElem_insert]
  target := by simp [columnMachine]
  sourceFull := rfl
  targetFull := rfl
  sourceFits := by
    refine ⟨[.size "x", .int 2], rfl, ?_⟩
    refine .cons (Evaluates.size (n := 3) (by decide) ?_)
      (.cons (Evaluates.int (n := 2) (by decide)) .nil)
    simp [columnMachine, Machine.idle, Std.TreeMap.getElem_insert]
  targetFits := rfl
  spans := by
    have horigin : (columnMachine first).idle.Evaluates (.scalar ⟨"ox", .int32⟩) first.toInt :=
      Evaluates.scalar (by simp [columnMachine, Machine.idle]) (ExactIntegers.ofInt _ h)
    have hextent : (columnMachine first).idle.Evaluates (.size "dst_x") 2 :=
      Evaluates.size (by decide) (by simp [columnMachine, Machine.idle])
    have hpinned : (columnMachine first).idle.Evaluates (.scalar columnIndex) 1 := by
      refine Evaluates.scalar (x := Arithmetic.ofInt 1) ?_ (ExactIntegers.ofInt 1 (by decide))
      simp [columnMachine, Machine.idle, columnIndex, Std.TreeMap.getElem_insert]
    exact .cons ⟨horigin, hextent⟩ (.cons ⟨hpinned, Evaluates.int (n := 1) (by decide)⟩ .nil)

theorem gather_region_column :
    ∃ k, gather columns [("y", .scalar columnIndex)] = .ok k ∧
      (∃ m' c, Machine.runKernel k (columnMachine 1) = .done m' ∧ m'.arrays["dst"]? = some c ∧
        c.get? [0, 0] = some (Binary64.ofInt 3) ∧ c.get? [1, 0] = some (Binary64.ofInt 5)) ∧
      ∃ cause, (Machine.runKernel k (columnMachine 2)).fault? = some (.cause cause) ∧
        cause.report.code = .indexOutOfBounds := by
  have hpins : PinsScalars [.free, .pinned (.scalar columnIndex)] := by
    intro e he n hn
    obtain rfl : e = .scalar columnIndex := by simpa using he
    obtain rfl : n = .scalar columnIndex := by simpa [Expr.nodes] using hn
    trivial
  have hgather := @gather_region Binary64 _ _ columns _ "dst" columnAxes
    [("y", .scalar columnIndex)] rfl rfl (by decide) hpins
  have hone := bound_column 1 (by decide)
  have htwo := bound_column 2 (by decide)
  have hapart : PinsApart columns [.free, .pinned (.scalar columnIndex)] := by
    constructor
    · intro e s he hs
      obtain rfl : e = .scalar columnIndex := by simpa using he
      obtain rfl : s = columnIndex := by simpa [Expr.nodes] using hs
      decide
    · intro e f s t he hf hs ht _
      obtain rfl : e = .scalar columnIndex := by simpa using he
      obtain rfl : f = .scalar columnIndex := by simpa using hf
      obtain rfl : s = columnIndex := by simpa [Expr.nodes] using hs
      simpa [Expr.nodes, eq_comm] using ht
  obtain ⟨k, hk⟩ := hgather.1 hapart
  refine ⟨k, hk, ?_, ?_⟩
  · have hinside : Span.Inside columnCells.dims [⟨1, 2⟩, ⟨1, 1⟩] :=
      .cons (by decide) (.cons (by decide) .nil)
    obtain ⟨m', c, hdone, hm', -, -, hcells⟩ := (hgather.2 k hk _ _ _ _ hone).1 hinside
    obtain ⟨x, hx, hc⟩ := hcells [0, 0] (.cons (by decide) (.cons (by decide) .nil))
    obtain ⟨y, hy, hd⟩ := hcells [1, 0] (.cons (by decide) (.cons (by decide) .nil))
    exact ⟨m', c, hdone, hm'.array, hc.trans hx.symm, hd.trans hy.symm⟩
  · apply (hgather.2 k hk _ _ _ _ htwo).2
    · decide
    · rintro (_ | ⟨⟨-, hout⟩, -⟩)
      exact absurd hout (by decide)

end GridKernel.Region
