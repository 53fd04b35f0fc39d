import GridKernel.Binary64.Basic
import GridKernel.Layout

/-!
Symbolic expressions over literals, scalars, axis indices, axis sizes and array accesses, with the
axes and arrays that they mention. `Expr.nodes` lists an expression's nodes, each before its
operands; the names it refers to are read off that list.
-/
namespace GridKernel

/-- A named value known when a kernel runs. -/
structure Scalar where
  name : String
  element : ElementType
deriving DecidableEq, Repr, Inhabited

inductive BinaryOp where
  | add
  | sub
  | mul
  | div
  | rem
  | eq
  | ne
  | lt
  | gt
deriving DecidableEq, Repr, Inhabited

mutual

inductive Expr where
  | int (n : Int64)
  | float (x : Binary64)
  /-- A name whose entity is not known yet. -/
  | symbol (name : String)
  | scalar (s : Scalar)
  /-- The current index along an axis. -/
  | dim (d : Dimension)
  /-- The extent of an axis, known when a kernel runs. -/
  | size (name : String)
  | access (array : GridArray) (indices : List Expr)
  | neg (operand : Expr)
  | binary (op : BinaryOp) (left right : Expr)

inductive AxisRole where
  /-- An axis of a given size, such as the width of a halo. -/
  | sized (size : Expr)
  /-- An index `start + step * trip` on each trip of the loop that carries it. -/
  | incremented (parent : Dimension) (start step : Expr)
  /-- An axis of the grid. -/
  | spatial
  /-- The axis along which a computation marches. -/
  | time

/-- A named axis of arrays and loops. -/
structure Dimension where
  name : String
  role : AxisRole

/-- A typed array over named axes. `shape` is the extent of its domain along each axis and `halo`
the widths allocated around it. -/
structure GridArray where
  name : String
  element : ElementType
  dims : List Dimension
  shape : List Expr
  halo : List Extent
  scope : Scope

end

instance : Inhabited Expr := ⟨.int 0⟩
instance : Inhabited Dimension := ⟨⟨"", .spatial⟩⟩
instance : Inhabited GridArray := ⟨⟨"", .int32, [], [], [], .external⟩⟩

/-- Two sides that are set equal, as an assignment or as a test. -/
structure Equation where
  lhs : Expr
  rhs : Expr
deriving Inhabited

namespace Expr

def int? : Expr → Option Int64
  | int n => some n
  | _ => none

/-- The integer literal of a size word; sizes from 2^63 on become negative. -/
def ofSize (n : UInt64) : Expr := int n.toInt64

mutual

/-- All nodes of an expression, each before its operands. -/
def nodes : Expr → List Expr
  | access a indices => access a indices :: nodesAll indices
  | neg e => neg e :: e.nodes
  | binary op l r => binary op l r :: (l.nodes ++ r.nodes)
  | e => [e]
termination_by structural e => e

def nodesAll : List Expr → List Expr
  | [] => []
  | e :: es => e.nodes ++ nodesAll es
termination_by structural es => es

end

/-- The name that a node itself refers to. -/
def name? : Expr → Option String
  | symbol n => some n
  | size n => some n
  | scalar s => some s.name
  | dim d => some d.name
  | access a _ => some a.name
  | _ => none

/-- The names of all entities and axes that an expression refers to. -/
def names (e : Expr) : List String := e.nodes.filterMap name?

end Expr

end GridKernel
