import GridKernel.Proofs.GatherLayout
import GridKernel.Proofs.HaloParts
import GridKernel.Proofs.ListAccess
import GridKernel.Proofs.WireForms

/-! The lists of constructed arrays. An array that is made from axes, given a shape or a halo, gathered
into or exchanged through is aligned, and so is everything built from it. The reader of written
arrays takes any lists, so an array that is read is aligned only when it was written so. -/
namespace GridKernel

namespace Halo

variable {a : GridArray} {rule : WidthRule} {slot : String} {axes : List Axis} {x : Axis}
  {side : Side} {t : Transfer} {classes : List AxisClass} {direction : Direction} {n : Nat}

theorem withinLists_span (array : String) (d : Dimension) (side : Side) (halo : Extent)
    (width : UInt64) (size : Expr) : WithinLists (span array d side halo width size) := by
  cases side with
  | left =>
    unfold span
    dsimp only
    split <;> simp
  | right =>
    unfold span
    dsimp only
    split
    · exact withinLists_refuse _
    · apply (Expr.withinLists_add _ _).bind
      intro stop _
      exact (Expr.withinLists_sub _ _).bind fun _ _ => withinLists_ok _

theorem withinLists_bufferAxis (hx : x.position < a.halo.length) (exchanged : Bool)
    (width : UInt64) (receive send : Expr) :
    WithinLists (bufferAxis a x exchanged width receive send) := by
  unfold bufferAxis
  split
  · exact (Dimension.withinLists_sized _ _).bind fun _ _ => withinLists_ok _
  · split
    · exact (Dimension.withinLists_sized _ _).bind fun _ _ => withinLists_ok _
    · exact (withinLists_entryAt hx).bind fun _ _ => withinLists_ok _

/-- The lists of a transfer along a number of axes: its buffer has one axis more, the slots. -/
structure Transfer.Aligned (t : Transfer) (n : Nat) : Prop where
  buffer : t.buffer.Aligned
  rank : t.buffer.rank = n + 1
  receive : t.receive.length = n
  send : t.send.length = n

theorem aligned_of_transfer (h : transfer a rule slot axes x side = .ok t) :
    t.Aligned axes.length := by
  obtain ⟨halo, size, receive, send, inner, hlined⟩ := exists_lined h
  have hlength := hlined.lined.length_eq
  have hbuffer := hlined.buffer
  constructor
  · rw [hbuffer]
    constructor
    · simp [GridArray.rank]
    · simp [GridArray.rank]
    · simpa [Function.comp_def] using hlined.distinct
  · rw [hbuffer]
    simp [GridArray.rank, hlength]
  · rw [hlined.receives, List.length_map, hlength]
  · rw [hlined.sends, List.length_map, hlength]

/-- The positions of the axes of an exchange are those of its array. -/
theorem Named.position_lt (h : Named a classes slot axes) (hx : x ∈ axes) :
    x.position < a.rank :=
  (List.getElem?_eq_some_iff.1 (h.dim_at hx)).1

theorem withinLists_transfer (ha : a.Aligned) (h : Named a classes slot axes) (hx : x ∈ axes) :
    WithinLists (transfer a rule slot axes x side) := by
  have hhalo : ∀ y ∈ axes, y.position < a.halo.length := by
    intro y hy
    rw [ha.halo]
    exact h.position_lt hy
  have hshape : x.position < a.shape.length := by
    rw [ha.shape]
    exact h.position_lt hx
  unfold transfer
  apply (withinLists_entryAt (hhalo x hx)).bind
  intro halo _
  apply (withinLists_entryAt hshape).bind
  intro size _
  apply (withinLists_span _ _ _ _ _ _).bind
  intro offsets _
  apply (Dimension.withinLists_sized _ _).bind
  intro slotDim _
  apply (WithinLists.mapM fun y hy => withinLists_bufferAxis (hhalo y hy) _ _ _ _).bind
  intro inner _
  apply (GridArray.withinLists_named _ _ _).bind
  intro buffer _
  exact (GridArray.withinLists_setHalo _ _).bind fun _ _ => withinLists_ok _

theorem Transfer.Aligned.offsets (h : t.Aligned n) (direction : Direction) :
    (direction.offsets t).length = n := by
  cases direction with
  | pack => exact h.send
  | unpack => exact h.receive

theorem withinLists_moveAxis (h : t.Aligned n) {axis : Nat} (haxis : axis < n) (c : AxisClass) :
    WithinLists (moveAxis t direction axis c) := by
  have hdims : axis + 1 < t.buffer.rank := by
    rw [h.rank]
    omega
  have hoffset : axis < (direction.offsets t).length := by rwa [h.offsets]
  unfold moveAxis
  apply (withinLists_entryAt hdims).bind
  intro d _
  apply (withinLists_entryAt hoffset).bind
  intro offset _
  split
  · exact withinLists_ok _
  · apply (h.buffer.allocated hdims).bind
    intro extent _
    exact (Expr.withinLists_add _ _).bind fun _ _ => withinLists_ok _

theorem withinLists_move (h : t.Aligned n) (hclasses : classes.length = n) :
    WithinLists (move a classes t direction) := by
  apply WithinLists.bind
  · apply WithinLists.mapM
    intro p hp
    have haxis : p.2 < n := by
      obtain ⟨-, hlt, -⟩ := List.mem_zipIdx hp
      omega
    exact withinLists_moveAxis h haxis p.1
  · intro lines _
    exact withinLists_ok _

theorem withinLists_kernel {buffers : BySide Transfer} {masks : BySide Scalar}
    (hbuffers : ∀ q ∈ buffers, q.2.2.Aligned classes.length) :
    WithinLists (kernel a classes buffers masks direction) := by
  apply WithinLists.bind
  · apply WithinLists.mapM
    rintro ⟨q, mask⟩ hq
    have hbuffer := hbuffers q (List.of_mem_zip hq).1
    exact (withinLists_move hbuffer rfl).bind fun _ _ => withinLists_ok _
  · intro moves _
    exact (Stmt.withinLists_parameters _).bind fun _ _ => withinLists_ok _

theorem withinLists_transfers (ha : a.Aligned) (h : Named a classes slot axes) :
    WithinLists (transfers a rule slot axes) := by
  apply WithinLists.mapM
  intro p hp
  exact (withinLists_transfer ha h (mem_exchanged.1 hp).1).bind fun _ _ => withinLists_ok _

theorem aligned_of_transfers {buffers : BySide Transfer}
    (h : transfers a rule slot axes = .ok buffers) :
    ∀ q ∈ buffers, q.2.2.Aligned axes.length := by
  intro q hq
  obtain ⟨p, -, -, -, ht⟩ := forall₂_mem_right (entries_of_transfers h) hq
  exact aligned_of_transfer ht

theorem withinLists_plan (ha : a.Aligned) (pins : Pins) (rule : WidthRule) :
    WithinLists (plan a pins rule) := by
  apply (withinLists_splitAxes _ _).bind
  intro classes hclasses
  exact withinLists_transfers ha (named (length_of_splitAxes hclasses) rfl)

/-- An exchange of an aligned array stays within its lists and those of the transfer buffers. -/
theorem withinLists_exchange (ha : a.Aligned) (pins : Pins) (rule? : Option WidthRule) :
    WithinLists (exchange a pins rule?) := by
  apply (withinLists_splitAxes _ _).bind
  intro classes hclasses
  rcases haxes : Halo.axes a classes with ⟨slot, axes⟩
  have hnamed := named (length_of_splitAxes hclasses) haxes
  apply (withinLists_transfers ha hnamed).bind
  intro buffers hbuffers
  have haligned : ∀ q ∈ buffers, q.2.2.Aligned classes.length := by
    rw [← hnamed.cls, List.length_map]
    exact aligned_of_transfers hbuffers
  apply (withinLists_kernel haligned).bind
  intro pack _
  exact (withinLists_kernel haligned).bind fun _ _ => withinLists_ok _

end Halo

namespace GridArray

variable {a b : GridArray}

theorem aligned_of_named {name : String} {dims : List Dimension} {element : ElementType}
    (h : named name dims element = .ok a) : a.Aligned := by
  obtain ⟨hnames, rfl⟩ := named_eq_ok h
  exact ⟨by simp [rank], by simp [rank], hnames⟩

theorem Aligned.setShape (ha : a.Aligned) {shape : List Expr} (h : a.setShape shape = .ok b) :
    b.Aligned := by
  unfold GridArray.setShape at h
  split at h
  · rename_i hlength
    obtain rfl := Except.ok.inj h
    exact ⟨hlength, ha.halo, ha.names⟩
  · cases h

theorem Aligned.setHalo (ha : a.Aligned) {halo : List Extent} (h : a.setHalo halo = .ok b) :
    b.Aligned := by
  unfold GridArray.setHalo at h
  split at h
  · rename_i hlength
    obtain rfl := Except.ok.inj h
    exact ⟨ha.shape, hlength, ha.names⟩
  · cases h

end GridArray

namespace Region

/-- The views of a gather are those of its array and of a destination that is aligned. -/
theorem aligned_of_gatherSplit {a b : GridArray} {classes : List AxisClass} {k : Kernel}
    (ha : a.Aligned) (h : gatherSplit a classes = .ok k) (hb : .view b ∈ k.body.nodes) :
    b.Aligned := by
  unfold gatherSplit at h
  obtain ⟨c, hc, h⟩ := bind_eq_ok.1 h
  obtain ⟨dst, hdst, h⟩ := bind_eq_ok.1 h
  obtain ⟨ps, -, h⟩ := bind_eq_ok.1 h
  obtain rfl := Except.ok.inj h
  have htarget := (GridArray.aligned_of_named hc).setShape hdst
  rcases view_of_statements hb with rfl | rfl
  · exact ha
  · exact htarget

end Region

namespace GridArray

/-- The arrays that are made from axes, with other shapes, halos and scopes, viewed by a gather of
such an array or the buffers of an exchange. -/
inductive Constructed : GridArray → Prop where
  | ofDims {a : GridArray} {name : String} {dims : List Dimension} {element : ElementType}
    (h : GridArray.ofDims name dims element = .ok a) : Constructed a
  | setShape {a b : GridArray} {shape : List Expr} (ha : Constructed a)
    (h : a.setShape shape = .ok b) : Constructed b
  | setHalo {a b : GridArray} {halo : List Extent} (ha : Constructed a)
    (h : a.setHalo halo = .ok b) : Constructed b
  | setScope {a : GridArray} (ha : Constructed a) (scope : Scope) : Constructed (a.setScope scope)
  | gather {a b : GridArray} {pins : Pins} {k : Kernel} (ha : Constructed a)
    (h : Region.gather a pins = .ok k) (hb : .view b ∈ k.body.nodes) : Constructed b
  | gatherWith {a b : GridArray} {pins : Pins} {free : List String} {k : Kernel}
    (ha : Constructed a) (h : Region.gatherWith a pins free = .ok k)
    (hb : .view b ∈ k.body.nodes) : Constructed b
  | plan {a : GridArray} {pins : Pins} {rule : WidthRule} {buffers : Halo.BySide Halo.Transfer}
    {q : Dimension × Side × Halo.Transfer} (ha : Constructed a)
    (h : Halo.plan a pins rule = .ok buffers) (hq : q ∈ buffers) : Constructed q.2.2.buffer
  | exchange {a : GridArray} {pins : Pins} {rule? : Option WidthRule} {e : Halo.Exchange}
    {q : Dimension × Side × Halo.Transfer} (ha : Constructed a)
    (h : Halo.exchange a pins rule? = .ok e) (hq : q ∈ e.buffers) : Constructed q.2.2.buffer

theorem Constructed.aligned {a : GridArray} (ha : Constructed a) : a.Aligned := by
  induction ha with
  | ofDims h =>
    obtain ⟨n, -, h⟩ := bind_eq_ok.1 h
    exact aligned_of_named h
  | setShape _ h ih => exact ih.setShape h
  | setHalo _ h ih => exact ih.setHalo h
  | setScope _ scope ih => exact ⟨ih.shape, ih.halo, ih.names⟩
  | gather _ h hb ih =>
    obtain ⟨classes, -, h⟩ := bind_eq_ok.1 h
    exact Region.aligned_of_gatherSplit ih h hb
  | gatherWith _ h hb ih =>
    obtain ⟨classes, -, h⟩ := bind_eq_ok.1 h
    exact Region.aligned_of_gatherSplit ih h hb
  | plan _ h hq ih =>
    obtain ⟨classes, -, h⟩ := bind_eq_ok.1 h
    exact (Halo.aligned_of_transfers h _ hq).buffer
  | exchange _ h hq ih =>
    obtain ⟨classes, slot, axes, hparts⟩ := Halo.exists_parts h
    obtain ⟨p, -, -, -, htransfer⟩ := forall₂_mem_right hparts.buffers hq
    exact (Halo.aligned_of_transfer htransfer).buffer

/-- A constructed array is aligned. Along each axis of an aligned array the allocation is that of its
own entries, and its exchange is planned without an access past its lists. Copies, entry points and
marches are built so from any arrays, and statements that view aligned arrays are listed, searched
for parameters and run so. What is read back from its text is any array, whatever its lists. -/
theorem lists_of_constructed {R : Type} [Arithmetic R] :
    (∀ a, Constructed a → a.Aligned) ∧
    (∀ a : GridArray, a.Aligned →
      (∀ axis < a.rank, ∃ halo size, a.halo[axis]? = some halo ∧ a.shape[axis]? = some size ∧
        a.domainOffset axis = .ok halo ∧
        a.allocated axis = (do
          let width ← Word.addSize halo.left halo.right
          size.add (.ofSize width))) ∧
      (∀ pins rule, WithinLists (Halo.plan a pins rule)) ∧
      ∀ pins rule?, WithinLists (Halo.exchange a pins rule?)) ∧
    ((∀ a pins, WithinLists (Region.gather a pins)) ∧
      (∀ a pins free, WithinLists (Region.gatherWith a pins free)) ∧
      (∀ e : EntryPoint, WithinLists e.toKernel) ∧ ∀ m : March, WithinLists m.entryPoint) ∧
    (∀ s : Stmt, s.ViewsAligned →
      WithinLists s.listing ∧ WithinLists s.parameters ∧
        ∀ m : Machine R, (m.run s).WithinLists) ∧
    ∀ a : GridArray, (∀ x ∈ a.floats, x.ReadsBack) →
      (Wire.encodeArray a).nesting ≤ Wire.depthLimit →
        Wire.parse? Wire.decodeArray (Wire.encodeArray a).compact = some a := by
  refine ⟨fun a ha => ha.aligned, ?_, ?_, ?_, ?_⟩
  · intro a ha
    refine ⟨?_, Halo.withinLists_plan ha, Halo.withinLists_exchange ha⟩
    intro axis haxis
    obtain ⟨halo, size, hhalo, hshape⟩ := ha.entries haxis
    exact ⟨halo, size, hhalo, hshape, entryAt_eq_ok.2 hhalo,
      allocated_of_entries hhalo hshape⟩
  · exact ⟨Region.withinLists_gather, Region.withinLists_gatherWith,
      EntryPoint.withinLists_toKernel, March.withinLists_entryPoint⟩
  · intro s hs
    exact ⟨hs.listing, Stmt.withinLists_parameters s, Machine.withinLists_run s hs⟩
  · intro a hfloats hdepth
    have hread : Json.read? (Wire.encodeArray a).compact = some (Wire.encodeArray a) :=
      Json.read?_compact (Wire.printable_gridArray a)
    rw [Wire.parse?, hread]
    exact Wire.recovers_gridArray a hfloats _ _ (Nat.lt_succ_self _) hdepth

/-- A plane as it is made from its axes. -/
def plane : GridArray :=
  ⟨"f", .float64, [⟨"y", .spatial⟩, ⟨"x", .spatial⟩], [.size "y", .size "x"], [.none, .none],
    .external⟩

/-- The plane without its halo. -/
def barePlane : GridArray := { plane with halo := [] }

theorem lists_of_constructed_read :
    Constructed plane ∧ plane.Aligned ∧ WithinLists (Stmt.view plane).listing ∧
      Wire.parse? Wire.decodeArray (Wire.encodeArray barePlane).compact = some barePlane ∧
      ¬ barePlane.Aligned ∧ ¬ WithinLists (Stmt.view barePlane).listing := by
  obtain ⟨haligned, -, -, hviews, hread⟩ := lists_of_constructed (R := Binary64)
  have hplane : Constructed plane :=
    .ofDims (rfl : GridArray.ofDims "f" [⟨"y", .spatial⟩, ⟨"x", .spatial⟩] .float64 = _)
  have hview : (Stmt.view plane).ViewsAligned := by
    intro a ha
    obtain rfl := Stmt.view.inj (List.mem_singleton.1 ha)
    exact haligned _ hplane
  refine ⟨hplane, haligned _ hplane, (hviews _ hview).1,
    hread barePlane (by decide) (by decide), ?_, ?_⟩
  · intro h
    cases h.halo
  · intro h
    exact h rfl

end GridArray

end GridKernel
