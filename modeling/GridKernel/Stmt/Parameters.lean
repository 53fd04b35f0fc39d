import GridKernel.Expr.Same
import GridKernel.Stmt.Basic

/-!
The parameters that a statement needs: the arrays and scalars that it uses and does not itself
provide. Uses are listed in program order, the expressions of a loop or branch before its body.
-/
namespace GridKernel

def Parameter.same : Parameter → Parameter → Bool
  | .array a, .array b => a.same b
  | .scalar s, .scalar t => s == t
  | _, _ => false

def Parameter.isArray : Parameter → Bool
  | .array _ => true
  | .scalar _ => false

/-- One use of an entity: of a parameter, or of a name whose entity is not known. -/
inductive Use where
  | entity (p : Parameter)
  | unknown (name : String)
deriving Inhabited

namespace Use

/-- The use that a view or access makes of an array; a local array is no parameter. -/
def ofArray? (a : GridArray) : Option Use :=
  match a.scope with
  | .external => some (entity (.array a))
  | .internal => none

/-- The use that a node of an expression makes itself, given the names declared around it. -/
def ofExpr? (declared : List String) : Expr → Option Use
  | .access a _ => ofArray? a
  | .scalar s => if s.name ∈ declared then none else some (entity (.scalar s))
  | .symbol name => some (unknown name)
  | _ => none

end Use

/-- The expressions that an index evaluates when its loop starts a trip. -/
def Dimension.stepping (d : Dimension) : List Expr :=
  match d.role with
  | .incremented _ start step => [start, step]
  | _ => []

namespace Stmt

/-- The expressions that a statement holds itself, in the order of use. -/
def exprs : Stmt → List Expr
  | assign target value => [target, value]
  | loop h _ => h.bounds.lower :: h.bounds.upper :: h.companions.flatMap Dimension.stepping
  | when c _ => [c]
  | ifElse c _ _ => [c]
  | _ => []

/-- The uses that a statement makes itself. -/
def ownUses (declared : List String) (s : Stmt) : List Use :=
  match s with
  | view a => (Use.ofArray? a).toList
  | s => (s.exprs.flatMap Expr.nodes).filterMap (Use.ofExpr? declared)

/-- All uses in a statement, in program order; scalars declared anywhere inside are left out. -/
def uses (s : Stmt) : List Use :=
  let declared := s.declaredNames
  s.nodes.flatMap (ownUses declared)

end Stmt

/-- Adds the entity of a use to those already met. One name may not denote two entities. -/
def addUse (met : List Parameter) : Use → Result (List Parameter)
  | .unknown name => refuse (.untypedSymbol name)
  | .entity p =>
    match met.find? (·.name == p.name) with
    | some q => if q.same p then .ok met else refuse (.twoEntities p.name)
    | none => .ok (met ++ [p])

/-- The parameters of a statement: arrays, then scalars, each in the order of first use. -/
def Stmt.parameters (s : Stmt) : Result (List Parameter) := do
  let met ← s.uses.foldlM addUse []
  return met.filter Parameter.isArray ++ met.filter (!·.isArray)

end GridKernel
