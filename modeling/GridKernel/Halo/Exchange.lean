import GridKernel.Halo.Plan
import GridKernel.Stmt.Parameters

/-! The kernels of a halo exchange. Packing gathers the cells that each side sends into slot 0 of
its buffer; unpacking scatters slot 1 into the halo. A mask scalar guards the transfer of each side,
since a grid at the edge of the domain has no neighbour there. -/
namespace GridKernel.Halo

inductive Direction where
  | pack
  | unpack
deriving DecidableEq, Repr, Inhabited

namespace Direction

def slot : Direction → Int64
  | pack => 0
  | unpack => 1

def kernelName : Direction → String
  | pack => "halo_pack"
  | unpack => "halo_unpack"

/-- The offsets of the cells that a direction moves. -/
def offsets : Direction → Transfer → List Expr
  | pack, t => t.send
  | unpack, t => t.receive

end Direction

/-- The masks of both sides of every free axis. -/
def masks (axes : List Axis) : BySide Scalar :=
  (exchanged axes).map fun (x, side) => (x.dim, side, ⟨x.names.masks side, .int32⟩)

/-- The buffer index, the array index and any loop along one axis of a transfer. -/
def moveAxis (t : Transfer) (direction : Direction) (axis : Nat) (c : AxisClass) :
    Result (Expr × Expr × Option LoopHead) := do
  let d ← entryAt t.buffer.dims (axis + 1)
  let offset ← entryAt (direction.offsets t) axis
  if c.isPinned then return (.int 0, offset, none)
  else
    let head : LoopHead := ⟨d, .upTo (← t.buffer.allocated (axis + 1)), [], .parallel⟩
    return (.dim d, ← offset.add (.dim d), some head)

/-- The loops that move one side's cells, the last axis innermost. -/
def move (a : GridArray) (classes : List AxisClass) (t : Transfer) (direction : Direction) :
    Result Stmt := do
  let axes ← classes.zipIdx.mapM fun (c, i) => moveAxis t direction i c
  let buffered := Expr.access t.buffer (.int direction.slot :: axes.map (·.1))
  let owned := Expr.access a (axes.map (·.2.1))
  let cell := match direction with
    | .pack => Stmt.assign buffered owned
    | .unpack => Stmt.assign owned buffered
  return cell.nest (axes.reverse.filterMap (·.2.2))

/-- The kernel of one direction: views of all arrays, then each side's transfer under its mask. -/
def kernel (a : GridArray) (classes : List AxisClass) (buffers : BySide Transfer)
    (masks : BySide Scalar) (direction : Direction) : Result Kernel := do
  let views := Stmt.view a :: buffers.map fun (_, _, t) => .view t.buffer
  let moves ← (buffers.zip masks).mapM fun ((_, _, t), (_, _, mask)) => do
    return Stmt.when (.scalar mask) (← move a classes t direction)
  let body := Stmt.block (views ++ moves)
  return ⟨⟨direction.kernelName, none, ← body.parameters, [.static]⟩, body⟩

structure Exchange where
  buffers : BySide Transfer
  masks : BySide Scalar
  pack : Kernel
  unpack : Kernel
deriving Inhabited

/-- The exchange of an array whose pinned axes take no part. Without a rule, each side is sized by
its own halo. -/
def exchange (a : GridArray) (pins : Pins) (rule? : Option WidthRule) : Result Exchange := do
  let classes ← splitAxes a.dims pins
  let (slot, axes) := axes a classes
  let buffers ← transfers a (rule?.getD .own) slot axes
  let masks := masks axes
  let pack ← kernel a classes buffers masks .pack
  let unpack ← kernel a classes buffers masks .unpack
  return ⟨buffers, masks, pack, unpack⟩

end GridKernel.Halo
