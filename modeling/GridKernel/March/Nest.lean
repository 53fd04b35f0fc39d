import GridKernel.Halo.Exchange
import GridKernel.March.Ring

/-!
The loop nest of a march: slot declarations, then a sequential time loop that advances the slots and
runs parallel space loops around the statements of a grid point.
-/
namespace GridKernel.March

/-- The loop counters that stand for the axes in the statements of a grid point. -/
def toCounters (m : March) : Replacements :=
  (m.spaceDims.zip m.spaceCounters).map (fun (d, c) => (.dim d, .dim c)) ++
    [(.dim m.timeDim, .dim m.timeCounter)]

/-- Resolves a side of an equation: time indices become slots, then axes become counters. -/
def resolveExpr (m : March) (e : Expr) : Result Expr := do
  return (← m.toRing e).replace m.toCounters

/-- The assignment of an equation, both sides resolved. -/
def resolve (m : March) (eqn : Equation) : Result Stmt := do
  let target ← m.resolveExpr eqn.lhs
  return .assign target (← m.resolveExpr eqn.rhs)

/-- The bounds of the time loop. A forward march with rings starts late enough for every level that
it reads to be filled; a backward march counts down to zero. -/
def timeBounds (m : March) : Result Bounds :=
  let steps := m.steps.toInt64
  if m.forward then do
    let skip := if m.hasRing then m.order.toInt64 else 0
    return ⟨.int skip, .int (← Word.add steps skip), 1⟩
  else do return ⟨.int (← Word.sub steps 1), .int (-1), -1⟩

/-- The heads of the space loops, the first axis innermost. -/
def spaceHeads (m : March) : List LoopHead :=
  (m.spaceCounters.zip m.spaceBounds).map fun (d, bounds) => ⟨d, bounds, [], .parallel⟩

/-- The loop nest around the statements of a grid point. -/
def loopNest (m : March) (point : Stmt) : Result Stmt := do
  let body := Stmt.block (m.advanceSlots ++ [point.nest m.spaceHeads])
  let timeLoop := Stmt.loop ⟨m.timeCounter, ← m.timeBounds, [], .sequential⟩ body
  return .block (m.slotScalars.map .declare ++ [timeLoop])

/-- A guarded assignment with axes replaced by counters. Its condition keeps the raw time index. -/
def guardedStmt (m : March) (g : Guarded) : Result Stmt := do
  let test := (g.condition.lhs.replace m.toCounters).equals (g.condition.rhs.replace m.toCounters)
  let thenBody ← m.resolve g.thenAssign
  match g.elseAssign? with
  | none => return .when test thenBody
  | some eqn => return .ifElse test thenBody (← m.resolve eqn)

/-- An equation with a row of values for its symbols. -/
def instantiate (m : March) (symbols : List String) (eqn : Equation) (row : List Expr) :
    Result Stmt :=
  if row.length = symbols.length then m.resolve (eqn.substitute (symbols.zip row))
  else refuse (.argumentCount symbols.length row.length)

/-- The statements of a grid point between those before and after, in the loop nest. -/
def build (m : March) (symbols : List String) (equations : List Equation)
    (rows : List (List Expr)) : Result Stmt := do
  if equations.length ≠ rows.length then refuse (.listCount equations.length rows.length)
  let before ← m.before.mapM m.guardedStmt
  let updates ← (equations.zip rows).mapM fun (eqn, row) => m.instantiate symbols eqn row
  let after ← m.after.mapM m.guardedStmt
  m.loopNest (.block (before ++ updates ++ after))

/-- The entry point with its body built from the kernel's source. -/
def entryPoint (m : March) : Result EntryPoint :=
  match m.source? with
  | none => refuse (.noKernelSource m.name)
  | some (.body s) => do return m.entry.withBody (← m.loopNest s)
  | some (.equations symbols equations rows) => do
    return m.entry.withBody (← m.build symbols equations rows)

/-- The halo exchange of an array at a time index; an array without a time axis is exchanged whole.
-/
def exchange (m : March) (a : GridArray) (time : Expr) : Result Halo.Exchange :=
  let pins := if a.dims.any (·.same m.timeDim) then [(m.timeDim.name, time)] else []
  Halo.exchange a pins m.rule?

end GridKernel.March
