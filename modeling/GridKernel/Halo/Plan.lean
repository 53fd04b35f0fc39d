import GridKernel.Identifier
import GridKernel.GridArray

/-!
Planning the exchange of halo cells. Each side of each free axis gets a transfer buffer of its own;
the first axis of a buffer has two slots, for the cells sent and the cells received. Offsets count
from the start of the allocation, so the domain along an axis starts at the left halo width.
-/
namespace GridKernel.Halo

/-- Entries by axis and side, axes in order and left before right. -/
abbrev BySide (α : Type) := List (Dimension × Side × α)

/-- The entry of an axis name and a side. -/
def BySide.get? {α : Type} (table : BySide α) (dim : String) (side : Side) : Option α :=
  (table.find? fun (d, s, _) => d.name == dim && s == side).map fun (_, _, x) => x

/-- A transfer buffer with the offsets, along every axis of the array, of the cells it receives and
of those it sends. -/
structure Transfer where
  buffer : GridArray
  receive : List Expr
  send : List Expr
deriving Inhabited

/-- The names generated for one axis. -/
structure AxisNames where
  width : String
  buffers : Side → String
  masks : Side → String

/-- An axis of the array with its position, its class and its names. -/
structure Axis where
  position : Nat
  dim : Dimension
  cls : AxisClass
  names : AxisNames

/-- Draws a name for each side of an axis. -/
def drawSides (stem : String) (d : Dimension) : StateM (List String) (Side → String) := do
  let left ← Identifier.draw s!"{stem}{d.name}{Side.left.initial}"
  let right ← Identifier.draw s!"{stem}{d.name}{Side.right.initial}"
  return fun side => match side with
    | .left => left
    | .right => right

/-- Draws the slot name, then the width names of all axes, their buffer names and mask names. -/
def drawNames (dims : List Dimension) : StateM (List String) (String × List AxisNames) := do
  let slot ← Identifier.draw "b"
  let widths ← dims.mapM fun d => Identifier.draw s!"h{d.name}"
  let buffers ← dims.mapM (drawSides "B")
  let masks ← dims.mapM (drawSides "m_")
  return (slot, (widths.zip (buffers.zip masks)).map fun (w, b, m) => ⟨w, b, m⟩)

/-- The name of the slot axis, and the axes of an array with their names. Generated names avoid the
names in use around the array. -/
def axes (a : GridArray) (classes : List AxisClass) : String × List Axis :=
  let (slot, names) := ((drawNames a.dims).run (a.namesInUse classes)).1
  (slot, (a.dims.zip (classes.zip names)).zipIdx.map fun ((d, c, n), i) => ⟨i, d, c, n⟩)

/-- The offsets along its own axis of the cells that a side receives and sends. The right halo
starts where the domain ends. -/
def span (array : String) (d : Dimension) (side : Side) (halo : Extent) (width : UInt64)
    (size : Expr) : Result (Expr × Expr) :=
  match side with
  | .left =>
    if halo.left < width then
      refuse (.haloExceeded side d.name array width.toNat halo.left.toNat)
    else .ok (.ofSize (halo.left - width), .ofSize halo.left)
  | .right =>
    if halo.right < width then
      refuse (.haloExceeded side d.name array width.toNat halo.right.toNat)
    else do
      let stop ← (Expr.ofSize halo.left).add size
      return (stop, ← stop.sub (.ofSize width))

/-- One axis of a transfer buffer, with the halo kept on it and the two offsets into the array. -/
structure BufferAxis where
  dim : Dimension
  halo : Extent
  receive : Expr
  send : Expr

/-- The axis of a buffer along an axis of the array: one cell for a pinned axis, the width for the
axis exchanged, and the whole allocation for any other. -/
def bufferAxis (a : GridArray) (x : Axis) (exchanged : Bool) (width : UInt64)
    (receive send : Expr) : Result BufferAxis :=
  match x.cls with
  | .pinned index => do return ⟨← Dimension.sized x.names.width (.int 1), .none, index, index⟩
  | .free =>
    if exchanged then do
      return ⟨← Dimension.sized x.names.width (.ofSize width), .none, receive, send⟩
    else do return ⟨x.dim, ← entryAt a.halo x.position, .int 0, .int 0⟩

/-- The transfer of one side of an axis. -/
def transfer (a : GridArray) (rule : WidthRule) (slot : String) (axes : List Axis) (x : Axis)
    (side : Side) : Result Transfer := do
  let halo ← entryAt a.halo x.position
  let width := rule.width side halo
  let (receive, send) ← span a.name x.dim side halo width (← entryAt a.shape x.position)
  let slotDim ← Dimension.sized slot (.int 2)
  let inner ← axes.mapM fun y => bufferAxis a y (y.position == x.position) width receive send
  let dims := slotDim :: inner.map BufferAxis.dim
  let buffer ← GridArray.named (x.names.buffers side) dims a.element
  return ⟨← buffer.setHalo (.none :: inner.map BufferAxis.halo), inner.map BufferAxis.receive,
    inner.map BufferAxis.send⟩

/-- The free axes with both sides of each. -/
def exchanged (axes : List Axis) : List (Axis × Side) :=
  (axes.filter (!·.cls.isPinned)).flatMap fun x => Side.all.map fun side => (x, side)

/-- The transfers of both sides of every free axis. -/
def transfers (a : GridArray) (rule : WidthRule) (slot : String) (axes : List Axis) :
    Result (BySide Transfer) :=
  (exchanged axes).mapM fun (x, side) => do
    return (x.dim, side, ← transfer a rule slot axes x side)

/-- The transfer buffers of an array whose pinned axes take no part. -/
def plan (a : GridArray) (pins : Pins) (rule : WidthRule) : Result (BySide Transfer) := do
  let (slot, axes) := axes a (← splitAxes a.dims pins)
  transfers a rule slot axes

end GridKernel.Halo
