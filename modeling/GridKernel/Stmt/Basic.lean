import GridKernel.GridArray

/-!
Loop nests. A statement assigns, loops, branches, runs a list in order, views a raw buffer as an
array, declares a scalar or wraps a whole kernel. `Stmt.nodes` lists a statement and all statements
inside it in program order; loops and assignments are read off that list.
-/
namespace GridKernel

/-- Loop bounds: the lower one is reached, the upper one is not; with a negative step a loop runs
down from the lower bound. -/
structure Bounds where
  lower : Expr
  upper : Expr
  step : Int64
deriving Inhabited

/-- From zero up in unit steps. -/
def Bounds.upTo (upper : Expr) : Bounds := ⟨.int 0, upper, 1⟩

inductive LoopOrder where
  /-- Trips may run in any order. -/
  | parallel
  /-- Each trip depends on the one before. -/
  | sequential
deriving DecidableEq, Repr, Inhabited

namespace LoopOrder

def tag : LoopOrder → String
  | parallel => "parallel"
  | sequential => "sequential"

def all : List LoopOrder := [parallel, sequential]

end LoopOrder

/-- What a loop runs over: its axis and bounds, and the indices that advance with it. -/
structure LoopHead where
  dim : Dimension
  bounds : Bounds
  companions : List Dimension
  order : LoopOrder
deriving Inhabited

inductive Qualifier where
  /-- Visible in its own file only. -/
  | static
deriving DecidableEq, Repr, Inhabited

namespace Qualifier

def tag : Qualifier → String
  | static => "static"

def all : List Qualifier := [static]

end Qualifier

inductive Parameter where
  | array (a : GridArray)
  | scalar (s : Scalar)
deriving Inhabited

namespace Parameter

def name : Parameter → String
  | array a => a.name
  | scalar s => s.name

def element : Parameter → ElementType
  | array a => a.element
  | scalar s => s.element

end Parameter

/-- The head of a kernel; without a result type it returns nothing. -/
structure Signature where
  name : String
  result? : Option ElementType
  parameters : List Parameter
  qualifiers : List Qualifier
deriving Inhabited

inductive Stmt where
  | assign (target value : Expr)
  | loop (head : LoopHead) (body : Stmt)
  | when (condition : Expr) (body : Stmt)
  | ifElse (condition : Expr) (thenBody elseBody : Stmt)
  | block (body : List Stmt)
  /-- Views the raw buffer of an array with the array's axes. -/
  | view (array : GridArray)
  /-- Declares a scalar of the enclosing kernel. -/
  | declare (s : Scalar)
  | kernel (signature : Signature) (body : Stmt)
deriving Inhabited

structure Kernel where
  signature : Signature
  body : Stmt
deriving Inhabited

namespace Kernel

def toStmt (k : Kernel) : Stmt := .kernel k.signature k.body

def parameterNames (k : Kernel) : List String := k.signature.parameters.map Parameter.name

end Kernel

namespace Stmt

/-- The statements directly inside, in program order. -/
def children : Stmt → List Stmt
  | loop _ body => [body]
  | when _ body => [body]
  | ifElse _ thenBody elseBody => [thenBody, elseBody]
  | block body => body
  | kernel _ body => [body]
  | _ => []

mutual

/-- A statement followed by all statements inside it, in program order. -/
def nodes : Stmt → List Stmt
  | loop h body => loop h body :: body.nodes
  | when c body => when c body :: body.nodes
  | ifElse c t e => ifElse c t e :: (t.nodes ++ e.nodes)
  | block body => block body :: nodesAll body
  | kernel s body => kernel s body :: body.nodes
  | s => [s]
termination_by structural s => s

def nodesAll : List Stmt → List Stmt
  | [] => []
  | s :: ss => s.nodes ++ nodesAll ss
termination_by structural ss => ss

end

def loop? : Stmt → Option LoopHead
  | loop head _ => some head
  | _ => none

def assignment? : Stmt → Option Equation
  | assign target value => some ⟨target, value⟩
  | _ => none

def declared? : Stmt → Option Scalar
  | declare s => some s
  | _ => none

/-- The heads of all loops, outer before inner. -/
def loops (s : Stmt) : List LoopHead := s.nodes.filterMap loop?

/-- All assignments, in program order. -/
def assignments (s : Stmt) : List Equation := s.nodes.filterMap assignment?

/-- The names of all scalars declared anywhere inside. -/
def declaredNames (s : Stmt) : List String := (s.nodes.filterMap declared?).map Scalar.name

/-- Nests a statement in loops, the first of the list innermost. -/
def nest (body : Stmt) (heads : List LoopHead) : Stmt :=
  heads.foldl (fun s h => loop h s) body

end Stmt

end GridKernel
