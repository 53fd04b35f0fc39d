import GridKernel.EntryPoint
import GridKernel.Expr.Replace

/-!
Marches: stencil kernels that step through time over a grid. A march is set up from its
configuration; arrays, scalars and locals are registered with it, then the kernel's source. An array
indexed by time that is not saved keeps one slot per time level in a ring.
-/
namespace GridKernel

namespace March

/-- The configuration of a march. `shape` is the grid's extents, slowest varying first; the first
space axis spans the last of them. -/
structure Specs where
  name : String
  /-- The number of time steps. -/
  steps : UInt64
  shape : List UInt64
  /-- Cells left out at both ends of every axis. -/
  border : UInt64 := 0
  forward : Bool := true
  /-- The number of earlier time levels that a step reads. -/
  order : UInt64 := 0
  rule? : Option WidthRule := none
deriving DecidableEq, Repr, Inhabited

/-- A conditional assignment run at every grid point. -/
structure Guarded where
  condition : Equation
  thenAssign : Equation
  elseAssign? : Option Equation
deriving Inhabited

/-- Where the statements at a grid point come from. -/
inductive Source where
  /-- Ready statements. -/
  | body (s : Stmt)
  /-- Stencil equations, each with a row of values for the named symbols. -/
  | equations (symbols : List String) (equations : List Equation) (rows : List (List Expr))
deriving Inhabited

end March

structure March where
  name : String
  steps : UInt64
  forward : Bool
  order : UInt64
  timeDim : Dimension
  spaceDims : List Dimension
  spaceCounters : List Dimension
  timeCounter : Dimension
  shape : List UInt64
  spaceBounds : List Bounds
  rule? : Option WidthRule
  /-- The registered arrays, each with whether all its time levels are saved. -/
  saved : List (String × Bool) := []
  before : List March.Guarded := []
  after : List March.Guarded := []
  source? : Option March.Source := none
  entry : EntryPoint
deriving Inhabited

namespace March

def axisNames : List String := ["x", "y", "z"]

def maxRank : Nat := axisNames.length

/-- The first extent too small for a border at both ends. -/
def tooSmall? (border : UInt64) : List UInt64 → Result (Option UInt64)
  | [] => .ok none
  | extent :: rest => do
    if extent < (← Word.mulSize 2 border) then return some extent else tooSmall? border rest

def ofSpecs (specs : Specs) : Result March := do
  let rank := specs.shape.length
  if rank = 0 ∨ maxRank < rank then refuse (.gridRank rank)
  match ← tooSmall? specs.border specs.shape with
  | some extent => refuse (.borderTooWide specs.border.toNat extent.toNat)
  | none =>
    let name ← Identifier.check specs.name
    let timeDim ← Dimension.time "t"
    let spaceDims ← (axisNames.take rank).mapM Dimension.spatial
    let spaceCounters ← (List.range rank).mapM fun k => Dimension.spatial s!"i{k + 1}"
    let timeCounter ← Dimension.time s!"i{rank + 1}"
    let spaceBounds := specs.shape.reverse.map fun extent =>
      ⟨.ofSize specs.border, .ofSize (extent - specs.border), 1⟩
    return {
      name, timeDim, spaceDims, spaceCounters, timeCounter, spaceBounds
      steps := specs.steps
      forward := specs.forward
      order := specs.order
      shape := specs.shape
      rule? := specs.rule?
      entry := .empty name }

def rank (m : March) : Nat := m.spaceDims.length

/-- The loop counters: one per space axis, then the time counter. -/
def counters (m : March) : List Dimension := m.spaceCounters ++ [m.timeCounter]

/-- Whether some registered array is not saved. -/
def hasRing (m : March) : Bool := m.saved.any (!·.2)

/-- The space axes with the extents that the march walks them over and those of an array. -/
def checkExtents (name : String) : List (Dimension × UInt64 × UInt64) → Result Unit
  | [] => .ok ()
  | (d, extent, walked) :: rest =>
    if extent = walked then checkExtents name rest
    else refuse (.extentMismatch name extent.toNat d.name walked.toNat)

/-- Refuses a ring that keeps too few time levels. -/
def checkSlots (m : March) (name : String) (ringed : Bool) (slots : UInt64) : Result Unit :=
  if ringed then do
    let needed ← Word.addSize m.order 1
    if slots < needed then refuse (.shortRing name needed.toNat) else .ok ()
  else .ok ()

/-- Registers an array. One extent more than the grid has axes makes its first axis time. -/
def addArray (m : March) (name : String) (shape : List UInt64) (element : ElementType)
    (save : Bool) : Result (March × GridArray) := do
  let timed := shape.length = m.rank + 1
  if shape.length ≠ m.rank + 1 ∧ shape.length ≠ m.rank then
    refuse (.axisCount name shape.length m.rank)
  let dims := if timed then m.timeDim :: m.spaceDims else m.spaceDims
  let extents := shape.drop (shape.length - m.rank)
  checkExtents name (m.spaceDims.zip (extents.zip m.shape.reverse))
  m.checkSlots name (!save && timed) (shape.headD 0)
  let a ← (← GridArray.ofDims name dims element).setShape (shape.map Expr.ofSize)
  let entry ← m.entry.addArray a
  return ({ m with entry, saved := m.saved ++ [(name, save)] }, a)

def addScalar (m : March) (name : String) (element : ElementType) : Result (March × Scalar) := do
  let s : Scalar := ⟨← Identifier.check name, element⟩
  return ({ m with entry := ← m.entry.addScalar s }, s)

def addLocal (m : March) (name : String) (element : ElementType) : Result (March × Scalar) := do
  let s : Scalar := ⟨← Identifier.check name, element⟩
  return ({ m with entry := ← m.entry.addLocal s }, s)

/-- Registers a guarded assignment before or after the stencil updates. -/
def addGuarded (m : March) (g : Guarded) (first : Bool) : March :=
  if first then { m with before := m.before ++ [g] } else { m with after := m.after ++ [g] }

def withSource (m : March) (source : Source) : March := { m with source? := some source }

end March

end GridKernel
