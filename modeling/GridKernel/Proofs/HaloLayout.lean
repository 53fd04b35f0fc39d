import GridKernel.Halo.Exchange
import GridKernel.Proofs.HaloNames
import GridKernel.Proofs.Steady

/-! The layout of a halo exchange. Every side of a free axis gets a transfer buffer, and the offsets
of the cells that it receives and sends have known values. -/
namespace GridKernel.Halo

/-- An axis of an exchange with the halo kept on it and the extent of its domain. -/
structure GridAxis extends Axis where
  halo : Extent
  size : Nat

namespace GridAxis

def allocated (x : GridAxis) : Nat := x.halo.left.toNat + x.size + x.halo.right.toNat

/-- The width of the halo on a side. -/
def width (x : GridAxis) (side : Side) : UInt64 := WidthRule.own.width side x.halo

/-- The first index of the cells that a side sends, or of the halo that it receives. -/
def origin (x : GridAxis) (direction : Direction) (side : Side) : Int :=
  match side, direction with
  | .left, .pack => x.halo.left.toNat
  | .left, .unpack => 0
  | .right, .pack => x.halo.left.toNat + x.size - x.halo.right.toNat
  | .right, .unpack => x.halo.left.toNat + x.size

/-- The indices along an axis that a side of the axis `x` moves. -/
def span (x : GridAxis) (direction : Direction) (side : Side) (y : GridAxis) : Span :=
  match y.cls with
  | .pinned (.int k) => ⟨k.toInt, 1⟩
  | .pinned _ => ⟨0, 1⟩
  | .free =>
    if y.position = x.position then ⟨x.origin direction side, (x.width side).toNat⟩
    else ⟨0, y.allocated⟩

end GridAxis

/-- An array whose shape is the size of each axis, with its axes: those pinned to an index are
pinned to a literal within the allocation. -/
structure Surveyed (a : GridArray) (classes : List AxisClass) (slot : String)
    (xs : List GridAxis) : Prop where
  named : Named a classes slot (xs.map GridAxis.toAxis)
  halo : a.halo = xs.map GridAxis.halo
  shape : a.shape = xs.map fun x => x.dim.extent
  valid : ∀ x ∈ xs, Identifier.isValid x.dim.name
  distinct : (xs.map fun x => x.dim.name).Nodup
  extent : ∀ x ∈ xs, x.dim.extent.IsExtent
  exact : ∀ x ∈ xs, x.allocated ≤ 2 ^ 53
  pinned : ∀ x ∈ xs, ∀ e, x.cls = .pinned e →
    ∃ k : Int64, e = .int k ∧ 0 ≤ k.toInt ∧ k.toInt < x.allocated

namespace Surveyed

variable {a : GridArray} {classes : List AxisClass} {slot : String} {xs : List GridAxis}
  {x y : GridAxis}

theorem position (h : Surveyed a classes slot xs) {i : Nat} (hx : xs[i]? = some x) :
    x.position = i := by
  apply h.named.position i x.toAxis
  rw [List.getElem?_map, hx]
  rfl

theorem getElem_position (h : Surveyed a classes slot xs) (hx : x ∈ xs) :
    xs[x.position]? = some x := by
  obtain ⟨i, hi⟩ := List.getElem?_of_mem hx
  rwa [h.position hi]

theorem eq_of_position (h : Surveyed a classes slot xs) (hx : x ∈ xs) (hy : y ∈ xs)
    (heq : y.position = x.position) : y = x := by
  have hget := h.getElem_position hy
  rw [heq, h.getElem_position hx] at hget
  exact (Option.some.inj hget).symm

theorem entry_map (h : Surveyed a classes slot xs) {β : Type} (f : GridAxis → β) (hx : x ∈ xs) :
    entryAt (xs.map f) x.position = .ok (f x) := by
  rw [entryAt, List.getElem?_map, h.getElem_position hx]
  rfl

theorem dims (h : Surveyed a classes slot xs) : a.dims = xs.map fun x => x.dim := by
  rw [← h.named.dims, List.map_map]
  rfl

theorem cls (h : Surveyed a classes slot xs) : classes = xs.map fun x => x.cls := by
  rw [← h.named.cls, List.map_map]
  rfl

theorem zipIdx_classes (h : Surveyed a classes slot xs) :
    classes.zipIdx = xs.map fun x => (x.cls, x.position) := by
  rw [h.cls]
  apply List.ext_getElem?
  intro i
  rw [List.getElem?_zipIdx, List.getElem?_map, List.getElem?_map, Nat.zero_add]
  cases hx : xs[i]? with
  | none => rfl
  | some x => simp [h.position hx]

end Surveyed

theorem addSize_eq {l r : UInt64} (h : l.toNat + r.toNat ≤ 2 ^ 53) :
    ∃ w, Word.addSize l r = .ok w ∧ w.toNat = l.toNat + r.toNat := by
  have hlt : l.toNat + r.toNat < 2 ^ 64 := by omega
  exact ⟨_, if_pos hlt, UInt64.toNat_ofNat_of_lt hlt⟩

variable {R : Type} [Arithmetic R] [ExactIntegers R] {m : Machine R} {a : GridArray}
  {classes : List AxisClass} {slot : String} {xs : List GridAxis} {x y : GridAxis}

/-- The sizes of all axes have their extents as values. -/
def Measures (m : Machine R) (xs : List GridAxis) : Prop :=
  ∀ x ∈ xs, m.Reads x.dim.extent x.size

theorem Surveyed.steady_extent (h : Surveyed a classes slot xs) (hm : Measures m xs)
    (hx : x ∈ xs) : m.Steady x.dim.extent x.size :=
  .extent (h.extent x hx) (hm x hx)

/-- The extent of an axis with its halo. -/
theorem steady_allocated {b : GridArray} {i : Nat} {halo : Extent} {size : Expr} {n : Nat}
    (hhalo : b.halo[i]? = some halo) (hsize : b.shape[i]? = some size) (hn : m.Steady size n)
    (hle : halo.left.toNat + n + halo.right.toNat ≤ 2 ^ 53) :
    ∃ e, b.allocated i = .ok e ∧
      m.Steady e (halo.left.toNat + n + halo.right.toNat : Nat) := by
  obtain ⟨w, hw, hwidth⟩ := addSize_eq (l := halo.left) (r := halo.right) (by omega)
  obtain ⟨e, he, hsteady⟩ := hn.add (.ofSize (n := w) (by omega)) (by omega)
  refine ⟨e, (GridArray.allocated_eq hhalo hsize hw).trans he, ?_⟩
  have hvalue : (n : Int) + w.toNat = (halo.left.toNat + n + halo.right.toNat : Nat) := by omega
  rwa [hvalue] at hsteady

theorem Surveyed.steady_allocated (h : Surveyed a classes slot xs) (hm : Measures m xs)
    (hx : x ∈ xs) : ∃ e, a.allocated x.position = .ok e ∧ m.Steady e x.allocated := by
  have hhalo : a.halo[x.position]? = some x.halo := by
    rw [h.halo, List.getElem?_map, h.getElem_position hx]
    rfl
  have hshape : a.shape[x.position]? = some x.dim.extent := by
    rw [h.shape, List.getElem?_map, h.getElem_position hx]
    rfl
  exact Halo.steady_allocated hhalo hshape (h.steady_extent hm hx) (h.exact x hx)

/-- The offsets of a side are found, with the first indices of its cells as values. -/
theorem span_eq (array : String) (side : Side) (hsize : m.Steady x.dim.extent x.size)
    (hle : x.allocated ≤ 2 ^ 53) :
    ∃ receive send, span array x.dim side x.halo (x.width side) x.dim.extent = .ok (receive, send) ∧
      m.Steady receive (x.origin .unpack side) ∧ m.Steady send (x.origin .pack side) := by
  have hallocated : x.allocated = x.halo.left.toNat + x.size + x.halo.right.toNat := rfl
  have hirrefl (n : UInt64) : ¬ n < n := by simp
  have hleft : m.Steady (.ofSize x.halo.left) x.halo.left.toNat := .ofSize (by omega)
  cases side with
  | left =>
    refine ⟨.ofSize (x.halo.left - x.halo.left), .ofSize x.halo.left, ?_, ?_, hleft⟩
    · exact if_neg (hirrefl _)
    · rw [UInt64.sub_self]
      exact .ofSize (by decide)
  | right =>
    have hright : m.Steady (.ofSize x.halo.right) x.halo.right.toNat := .ofSize (by omega)
    obtain ⟨stop, hstop, hreceive⟩ := hleft.add hsize (by omega)
    obtain ⟨send, hsend, hsteady⟩ := hreceive.sub hright (by omega)
    refine ⟨stop, send, ?_, hreceive, hsteady⟩
    refine (if_neg (hirrefl _)).trans ?_
    rw [hstop, ok_bind]
    show (do return (stop, ← stop.sub (.ofSize x.halo.right)) : Result (Expr × Expr)) = _
    rw [hsend]
    rfl

/-- The axis of a transfer buffer along each axis of the array. -/
inductive Spanned (x : GridAxis) (side : Side) (receive send : Expr) (y : GridAxis) :
    BufferAxis → Prop where
  | pinned (index : Expr) (hy : y.cls = .pinned index) :
    Spanned x side receive send y ⟨⟨y.names.width, .sized (.int 1)⟩, .none, index, index⟩
  | exchanged (hy : y.cls = .free) (hpos : y.position = x.position) :
    Spanned x side receive send y
      ⟨⟨y.names.width, .sized (.ofSize (x.width side))⟩, .none, receive, send⟩
  | whole (hy : y.cls = .free) (hpos : y.position ≠ x.position) :
    Spanned x side receive send y ⟨y.dim, y.halo, .int 0, .int 0⟩

/-- The transfer of a side with the given axes. -/
def transferOf (a : GridArray) (slot : String) (x : GridAxis) (side : Side)
    (inner : List BufferAxis) : Transfer where
  buffer :=
    let dims := ⟨slot, .sized (.int 2)⟩ :: inner.map BufferAxis.dim
    ⟨x.names.buffers side, a.element, dims, dims.map Dimension.extent,
      .none :: inner.map BufferAxis.halo, .external⟩
  receive := inner.map BufferAxis.receive
  send := inner.map BufferAxis.send

theorem sized_eq_ok {name : String} (h : Identifier.isValid name) (size : Expr) :
    Dimension.sized name size = .ok ⟨name, .sized size⟩ := by
  rw [Dimension.sized, Identifier.check_eq_ok h]
  rfl

omit [ExactIntegers R] [Arithmetic R] in
theorem exists_bufferAxis (h : Surveyed a classes slot xs) (side : Side) (receive send : Expr)
    (hy : y ∈ xs) :
    ∃ b, bufferAxis a y.toAxis (y.position == x.position) (x.width side) receive send = .ok b ∧
      Spanned x side receive send y b := by
  have hwidth : Identifier.isValid y.names.width :=
    h.named.width_valid y.toAxis (List.mem_map_of_mem hy) (h.valid y hy)
  unfold bufferAxis
  cases hcls : y.cls with
  | pinned index =>
    refine ⟨_, ?_, .pinned index hcls⟩
    simp only [sized_eq_ok hwidth, ok_bind]
    rfl
  | free =>
    by_cases hpos : y.position = x.position
    · refine ⟨_, ?_, .exchanged hcls hpos⟩
      simp only [hpos, beq_self_eq_true, if_true, sized_eq_ok hwidth, ok_bind]
      rfl
    · refine ⟨_, ?_, .whole hcls hpos⟩
      have hhalo : entryAt a.halo y.position = .ok y.halo := h.halo ▸ h.entry_map _ hy
      simp only [beq_eq_false_iff_ne.2 hpos, hhalo, ok_bind]
      rfl

/-- The name of the axis of a buffer along an axis of the array. -/
def GridAxis.bufferName (x y : GridAxis) : String :=
  if y.cls.isPinned ∨ y.position = x.position then y.names.width else y.dim.name

omit [ExactIntegers R] [Arithmetic R] in
theorem Spanned.name {side : Side} {receive send : Expr} {b : BufferAxis}
    (h : Spanned x side receive send y b) : b.dim.name = x.bufferName y := by
  unfold GridAxis.bufferName
  cases h with
  | pinned index hy => simp [hy, AxisClass.isPinned]
  | exchanged hy hpos => simp [hpos]
  | whole hy hpos => simp [hy, hpos, AxisClass.isPinned]

omit [ExactIntegers R] [Arithmetic R] in
theorem Surveyed.bufferNames_distinct (h : Surveyed a classes slot xs) (x : GridAxis) :
    (slot :: xs.map x.bufferName).Nodup := by
  have hdims : (a.dims.map Dimension.name).Nodup := by
    rw [h.dims, List.map_map]
    exact h.distinct
  have hnames := h.named.bufferNames_distinct hdims x.toAxis
  rw [List.map_map] at hnames
  exact hnames

/-- A transfer is put together from the offsets of its side and from axes of different names. -/
theorem transfer_of_inner {rule : WidthRule} {axes : List Axis} {x : Axis} {side : Side}
    {halo : Extent} {size receive send : Expr} {inner : List BufferAxis}
    (hnamed : Named a classes slot axes) (hhalo : a.halo[x.position]? = some halo)
    (hsize : a.shape[x.position]? = some size)
    (hspan : span a.name x.dim side halo (rule.width side halo) size = .ok (receive, send))
    (hinner : axes.mapM (fun y => bufferAxis a y (y.position == x.position)
      (rule.width side halo) receive send) = .ok inner)
    (hnames : inner.map (fun b => b.dim.name) = axes.map x.bufferName)
    (hdims : (a.dims.map Dimension.name).Nodup) :
    transfer a rule slot axes x side = .ok
      { buffer :=
          let dims := ⟨slot, .sized (.int 2)⟩ :: inner.map BufferAxis.dim
          ⟨x.names.buffers side, a.element, dims, dims.map Dimension.extent,
            .none :: inner.map BufferAxis.halo, .external⟩
        receive := inner.map BufferAxis.receive
        send := inner.map BufferAxis.send } := by
  have hnodup : (((⟨slot, .sized (.int 2)⟩ :: inner.map BufferAxis.dim : List Dimension)).map
      Dimension.name).Nodup := by
    rw [List.map_cons, List.map_map]
    exact (hnames ▸ hnamed.bufferNames_distinct hdims x :)
  unfold transfer
  simp only [entryAt_eq_ok.2 hhalo, entryAt_eq_ok.2 hsize, ok_bind, hspan,
    sized_eq_ok hnamed.slot_valid, hinner, GridArray.named_of_nodup _ _ hnodup]
  rw [GridArray.setHalo_eq (by simp [GridArray.rank])]
  rfl

/-- The transfer of a side is planned, and its offsets have known values. -/
theorem exists_transfer (h : Surveyed a classes slot xs) (hm : Measures m xs) (hx : x ∈ xs)
    (side : Side) :
    ∃ receive send inner, m.Steady receive (x.origin .unpack side) ∧
      m.Steady send (x.origin .pack side) ∧
      List.Forall₂ (Spanned x side receive send) xs inner ∧
      transfer a .own slot (xs.map GridAxis.toAxis) x.toAxis side =
        .ok (transferOf a slot x side inner) := by
  obtain ⟨receive, send, hspan, hreceive, hsend⟩ :=
    span_eq a.name side (h.steady_extent hm hx) (h.exact x hx)
  obtain ⟨inner, hboth⟩ := exists_forall₂ fun y hy =>
    exists_bufferAxis (x := x) h side receive send hy
  have hmapM := mapM_eq_ok.2 (hboth.imp fun _ _ hb => hb.1)
  have hinner : List.Forall₂ (Spanned x side receive send) xs inner :=
    hboth.imp fun _ _ hb => hb.2
  refine ⟨receive, send, inner, hreceive, hsend, hinner, ?_⟩
  have hhalo : a.halo[x.position]? = some x.halo := entryAt_eq_ok.1 (h.halo ▸ h.entry_map _ hx)
  have hshape : a.shape[x.position]? = some x.dim.extent :=
    entryAt_eq_ok.1 (h.shape ▸ h.entry_map _ hx)
  have hnames : inner.map (fun b => b.dim.name) =
      (xs.map GridAxis.toAxis).map x.toAxis.bufferName := by
    rw [List.map_map]
    exact map_eq_map_iff_forall₂.2 (hinner.flip.imp fun _ _ hb => hb.name)
  have hdims : (a.dims.map Dimension.name).Nodup := by
    rw [h.dims, List.map_map]
    exact h.distinct
  refine transfer_of_inner h.named hhalo hshape hspan ?_ hnames hdims
  rw [List.mapM_map]
  exact hmapM

end GridKernel.Halo
