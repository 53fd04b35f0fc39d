import GridKernel.Identifier
import GridKernel.Stmt.Parameters

/-!
Gathering a region of an array into a dense array. A pinned axis contributes one cell; along a free
axis `d` the region starts at a runtime offset and has a runtime extent. Generated names avoid the
array's name, its axes and every name in the pinned indices.
-/
namespace GridKernel.Region

/-- One axis of a gather: the source axis, the destination axis that advances with it, the first
source index, and whether that index is pinned. -/
structure Axis where
  source : Dimension
  target : Dimension
  origin : Expr
  pinned : Bool

namespace Axis

def sourceIndex (x : Axis) : Expr :=
  if x.pinned then x.origin else .binary .add (.dim x.source) x.origin

def targetIndex (x : Axis) : Expr := if x.pinned then .int 0 else .dim x.target

/-- The destination's extent. -/
def extent (x : Axis) : Expr := if x.pinned then .int 1 else x.target.extent

end Axis

/-- Lays out one axis. Only a free axis draws a name for its offset. -/
def axis (target : String) (d : Dimension) (c : AxisClass) : StateM (List String) Axis := do
  let e := Dimension.incremented (← Identifier.draw s!"{target}_{d.name}") d (.int 0) (.int 1)
  match c with
  | .pinned index => return ⟨d, e, index, true⟩
  | .free =>
    let offset : Scalar := ⟨← Identifier.draw s!"o{d.name}", .int32⟩
    return ⟨d, e, .scalar offset, false⟩

/-- The destination's name and the layout of all axes, in order. -/
def layout (a : GridArray) (classes : List AxisClass) :
    StateM (List String) (String × List Axis) := do
  let target ← Identifier.draw "dst"
  return (target, ← (a.dims.zip classes).mapM fun (d, c) => axis target d c)

/-- The loop over one axis; an axis of extent one needs none. -/
def Axis.loop? (x : Axis) : Option LoopHead :=
  if x.extent.int? = some 1 then none
  else some ⟨x.source, .upTo x.extent, [x.target], .parallel⟩

/-- The destination's name and the layout of all axes, under names that are not in use. -/
def plan (a : GridArray) (classes : List AxisClass) : String × List Axis :=
  ((layout a classes).run (a.namesInUse classes)).1

/-- Views of both arrays, then the loops around the copy of one cell, the last axis innermost. -/
def statements (a dst : GridArray) (axes : List Axis) : Stmt :=
  let cell := Stmt.assign (.access dst (axes.map Axis.targetIndex))
    (.access a (axes.map Axis.sourceIndex))
  .block [.view a, .view dst, cell.nest (axes.reverse.filterMap Axis.loop?)]

/-- The gather kernel over classified axes. -/
def gatherSplit (a : GridArray) (classes : List AxisClass) : Result Kernel := do
  let (name, axes) := plan a classes
  let dst ← (← GridArray.named name (axes.map Axis.target) a.element).setShape
    (axes.map Axis.extent)
  let body := statements a dst axes
  return ⟨⟨"copy", none, ← body.parameters, [.static]⟩, body⟩

/-- The kernel that gathers the region at the pinned indices. -/
def gather (a : GridArray) (pins : Pins) : Result Kernel := do
  gatherSplit a (← splitAxes a.dims pins)

/-- Like `gather`, with the free axes named. -/
def gatherWith (a : GridArray) (pins : Pins) (free : List String) : Result Kernel := do
  gatherSplit a (← splitAxesWith a.dims pins free)

end GridKernel.Region
