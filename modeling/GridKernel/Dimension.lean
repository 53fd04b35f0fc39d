import GridKernel.Expr.Basic
import GridKernel.Identifier

/-!
Axes: validated constructors, sizes, and the split of an array's axes into those pinned to one index
and those left free.
-/
namespace GridKernel

namespace Dimension

def sized (name : String) (size : Expr) : Result Dimension := do
  return ⟨← Identifier.check name, .sized size⟩

def spatial (name : String) : Result Dimension := do
  return ⟨← Identifier.check name, .spatial⟩

def time (name : String) : Result Dimension := do
  return ⟨← Identifier.check name, .time⟩

/-- An index that advances with the loop along `parent`. -/
def incremented (name : String) (parent : Dimension) (start step : Expr) : Dimension :=
  ⟨name, .incremented parent start step⟩

def isTime (d : Dimension) : Bool :=
  match d.role with
  | .time => true
  | _ => false

def parent? (d : Dimension) : Option Dimension :=
  match d.role with
  | .incremented parent _ _ => some parent
  | _ => none

/-- The given size of a sized axis; otherwise the extent bound when a kernel runs. -/
def extent (d : Dimension) : Expr :=
  match d.role with
  | .sized size => size
  | _ => .size d.name

end Dimension

/-- Axes pinned to one index, by name; a later entry for a name wins. -/
abbrev Pins := List (String × Expr)

def Pins.find? : Pins → String → Option Expr
  | [], _ => none
  | (key, value) :: rest, name => (find? rest name).or (if key = name then some value else none)

inductive AxisClass where
  | pinned (index : Expr)
  | free
deriving Inhabited

namespace AxisClass

def isPinned : AxisClass → Bool
  | pinned _ => true
  | free => false

def index? : AxisClass → Option Expr
  | pinned index => some index
  | free => none

end AxisClass

/-- The least name of a list, in the order of code points. -/
def leastName : List String → Option String
  | [] => none
  | n :: ns =>
    match leastName ns with
    | some m => some (if m < n then m else n)
    | none => some n

/-- The least of the given names that no axis has. -/
def unknownName? (dims : List Dimension) (names : List String) : Option String :=
  leastName (names.filter fun n => !(dims.map Dimension.name).contains n)

/-- The class of each axis, in order: pinned axes with their index, all others free. -/
def splitAxes (dims : List Dimension) (pins : Pins) : Result (List AxisClass) :=
  match unknownName? dims (pins.map Prod.fst) with
  | some name => refuse (.unknownPinned name)
  | none => .ok (dims.map fun d => ((pins.find? d.name).map AxisClass.pinned).getD .free)

/-- Refuses the first axis that is not in exactly one of the two sets. -/
def checkPartition (free : List String) : List (Dimension × AxisClass) → Result Unit
  | [] => .ok ()
  | (d, c) :: rest =>
    match c.isPinned, free.contains d.name with
    | true, true => refuse (.pinnedAndFree d.name)
    | false, false => refuse (.neitherPinnedNorFree d.name)
    | _, _ => checkPartition free rest

/-- Like `splitAxes`, with the free axes named: every axis is either pinned or named. -/
def splitAxesWith (dims : List Dimension) (pins : Pins) (free : List String) :
    Result (List AxisClass) := do
  let classes ← splitAxes dims pins
  match unknownName? dims free with
  | some name => refuse (.unknownFree name)
  | none =>
    checkPartition free (dims.zip classes)
    return classes

theorem length_of_splitAxes {dims : List Dimension} {pins : Pins} {classes : List AxisClass}
    (h : splitAxes dims pins = .ok classes) : classes.length = dims.length := by
  unfold splitAxes at h
  split at h
  · cases h
  · injection h with h
    subst h
    simp

end GridKernel
