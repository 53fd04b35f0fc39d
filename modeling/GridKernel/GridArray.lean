import GridKernel.Dimension
import GridKernel.Expr.Fold

/-!
Arrays over named axes. A new array has its axes' sizes as its shape, no halo and external scope;
`setShape` and `setHalo` want one entry per axis.
-/
namespace GridKernel.GridArray

/-- The first name that an earlier entry of the list has too. -/
def repeated? (seen : List String) : List String → Option String
  | [] => none
  | n :: ns => if n ∈ seen then some n else repeated? (n :: seen) ns

/-- An array under a name that is not checked. -/
def named (name : String) (dims : List Dimension) (element : ElementType) : Result GridArray :=
  match repeated? [] (dims.map Dimension.name) with
  | some d => refuse (.repeatedDimension name d)
  | none => .ok ⟨name, element, dims, dims.map Dimension.extent, dims.map fun _ => .none, .external⟩

/-- An array under an identifier. -/
def ofDims (name : String) (dims : List Dimension) (element : ElementType) : Result GridArray := do
  named (← Identifier.check name) dims element

def rank (a : GridArray) : Nat := a.dims.length

def setShape (a : GridArray) (shape : List Expr) : Result GridArray :=
  if shape.length = a.rank then .ok { a with shape := shape }
  else refuse (.shapeRank a.name a.rank shape.length)

def setHalo (a : GridArray) (halo : List Extent) : Result GridArray :=
  if halo.length = a.rank then .ok { a with halo := halo }
  else refuse (.haloRank a.name a.rank halo.length)

def setScope (a : GridArray) (scope : Scope) : GridArray := { a with scope := scope }

/-- The position of the axis of a name. -/
def axis? (a : GridArray) (name : String) : Option Nat :=
  a.dims.findIdx? (·.name == name)

/-- The distances of the domain from the two ends of the allocation along one axis. -/
def domainOffset (a : GridArray) (axis : Nat) : Result Extent := entryAt a.halo axis

/-- The allocated extent along one axis: the domain and both halo widths. -/
def allocated (a : GridArray) (axis : Nat) : Result Expr := do
  let halo ← entryAt a.halo axis
  let size ← entryAt a.shape axis
  size.add (.ofSize (← Word.addSize halo.left halo.right))

/-- The allocated extents along all axes, in order. -/
def allocation (a : GridArray) : Result (List Expr) :=
  (List.range a.rank).mapM a.allocated

/-- The names in use around an array whose axes are classified: its own, its axes' and those in the
pinned indices. -/
def namesInUse (a : GridArray) (classes : List AxisClass) : List String :=
  a.name :: (a.dims.map Dimension.name ++ (classes.filterMap AxisClass.index?).flatMap Expr.names)

end GridKernel.GridArray
