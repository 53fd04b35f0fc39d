import GridKernel.Machine.Basic
import GridKernel.Stmt.Basic

/-! Running statements. A run ends in a machine, and with a fault where it stopped early; the stores
made before a fault are kept. The number of trips of a loop is fixed when it starts, so every run
ends. -/
namespace GridKernel

structure Outcome (R : Type) where
  machine : Machine R
  fault? : Option Fault := none

namespace Outcome

variable {R : Type}

def done (m : Machine R) : Outcome R := ⟨m, none⟩

/-- Goes on with a machine that has not stopped. -/
def andThen (o : Outcome R) (next : Machine R → Outcome R) : Outcome R :=
  match o.fault? with
  | none => next o.machine
  | some _ => o

/-- Goes on with a value, or stops with the fault of computing it. -/
def attempt {α : Type} (m : Machine R) (value : Result α) (next : α → Outcome R) : Outcome R :=
  match value with
  | .ok x => next x
  | .error fault => ⟨m, some fault⟩

end Outcome

/-- The number of trips of a loop: the least `n` with `lower + n * step` at or past `upper`. -/
def tripCount (lower upper step : Int) : Nat :=
  if 0 < step then ((upper - lower + step - 1) / step).toNat
  else ((lower - upper - step - 1) / -step).toNat

namespace Machine

variable {R : Type} [Arithmetic R]

/-- The value of a companion index on a trip. -/
def companionIndex (m : Machine R) (d : Dimension) (trip : Int64) : Result Int64 :=
  match d.role with
  | .incremented _ start step => do
    let first ← m.evalIndex start
    Word.add first (← Word.mul (← m.evalIndex step) trip)
  | _ => .ok trip

/-- Binds the companion indices of a trip, in order. -/
def bindCompanions (trip : Int64) : List Dimension → Machine R → Outcome R
  | [], m => .done m
  | d :: ds, m => .attempt m (m.companionIndex d trip) fun i =>
      bindCompanions trip ds (m.bindIndex d.name i)

/-- Runs the remaining trips of a loop. The index is advanced after every trip, the last included.
-/
def runTrips (head : LoopHead) (body : Machine R → Outcome R) :
    Nat → Int64 → Int64 → Machine R → Outcome R
  | 0, _, _, m => .done m
  | n + 1, index, trip, m =>
    ((bindCompanions trip head.companions (m.bindIndex head.dim.name index)).andThen body).andThen
      fun m => .attempt m (Word.add index head.bounds.step) fun index =>
        .attempt m (Word.add trip 1) fun trip => runTrips head body n index trip m

def runLoop (head : LoopHead) (body : Machine R → Outcome R) (m : Machine R) : Outcome R :=
  .attempt m (m.evalIndex head.bounds.lower) fun lower =>
    .attempt m (m.evalIndex head.bounds.upper) fun upper =>
      if head.bounds.step = 0 then ⟨m, some (.cause (.zeroStep head.dim.name))⟩
      else
        runTrips head body (tripCount lower.toInt upper.toInt head.bounds.step.toInt) lower 0 m

/-- Stores a value in a cell or a scalar. -/
def store (m : Machine R) (target : Expr) (value : R) : Result (Machine R) :=
  match target with
  | .access a indices => do
    let indices ← m.evalIndices indices
    let b ← m.array a.name
    let b ← bound (b.set? indices value) (outside a.name b indices)
    return m.bindArray a.name b
  | .scalar s => .ok (m.bindScalar s.name value)
  | e => refuse (.notAssignable e.text)

/-- Checks that the buffer bound to an array has the array's allocated extents. -/
def checkView (m : Machine R) (a : GridArray) : Result Unit := do
  let expected ← (List.range a.rank).mapM fun axis => do m.evalIndex (← a.allocated axis)
  let b ← m.array a.name
  if b.dims.map Word.signed = expected then return ()
  else refuse (.boundShape a.name (b.dims.map UInt64.toNat) (expected.map Int64.toInt))

mutual

def run : Stmt → Machine R → Outcome R
  | .assign target value, m =>
    .attempt m (m.eval value) fun x => .attempt m (m.store target x) .done
  | .loop head body, m => runLoop head (run body) m
  | .when c body, m =>
    .attempt m (m.eval c) fun x => if Arithmetic.isTrue x then run body m else .done m
  | .ifElse c thenBody elseBody, m =>
    .attempt m (m.eval c) fun x => if Arithmetic.isTrue x then run thenBody m else run elseBody m
  | .block body, m => runAll body m
  | .view a, m => .attempt m (m.checkView a) fun _ => .done m
  | .declare s, m => .done (m.bindScalar s.name Arithmetic.zero)
  | .kernel _ body, m => run body m
termination_by structural s => s

def runAll : List Stmt → Machine R → Outcome R
  | [], m => .done m
  | s :: ss, m => (run s m).andThen (runAll ss)
termination_by structural ss => ss

end

/-- The machine that a kernel starts in: no loop index is bound. -/
def idle (m : Machine R) : Machine R := { m with indices := ∅ }

def runKernel (k : Kernel) (m : Machine R) : Outcome R := run k.body m.idle

end Machine

end GridKernel
