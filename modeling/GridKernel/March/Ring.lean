import GridKernel.Expr.Fold
import GridKernel.Expr.Text
import GridKernel.March.Basic

/-!
Time rings. An array that is not saved keeps `order + 1` time levels, and the scalars `t0`, `t1`, …
hold the slots of the levels that a step refers to. A time index at a constant offset from the
current time is replaced by the slot of its level.
-/
namespace GridKernel.March

/-- The scalar that holds a slot. -/
def slotScalar (i : Nat) : Scalar := ⟨s!"t{i}", .int32⟩

/-- The scalars of all slots; a march whose arrays are all saved has none. -/
def slotScalars (m : March) : List Scalar :=
  if m.hasRing then (List.range (m.order.toNat + 1)).map slotScalar else []

/-- Whether a name is that of a registered array that is not saved. -/
def isRinged (m : March) (name : String) : Bool :=
  (m.saved.find? (·.1 == name)).any (!·.2)

/-- The slot of the level at an offset from the current time. A forward march refers to earlier
levels, a backward one to later ones. -/
def slotOf (m : March) (offset : Int64) : Result Int64 :=
  if m.forward then Word.add m.order.toInt64 offset else Word.sub m.order.toInt64 offset

/-- The slot of a time index. -/
def slotAt (m : March) (index : Expr) : Result Expr := do
  let notOffset : Cause := .notTimeOffset index.text m.timeDim.name
  match ← index.offset? with
  | none => refuse notOffset
  | some (d, offset) =>
    if !d.same m.timeDim then refuse notOffset
    else
      let slot ← m.slotOf offset
      if 0 ≤ slot ∧ slot ≤ m.order.toInt64 then return .scalar (slotScalar slot.toInt.toNat)
      else refuse (.outsideRing offset.toInt (← Word.addSize m.order 1).toNat)

mutual

/-- Puts slots for the time indices of all references to ringed arrays. -/
def toSlots (m : March) : Expr → Result Expr
  | .access a indices =>
    if m.isRinged a.name then do return .access a (← m.ringIndices a.dims indices)
    else do return .access a (← m.toSlotsAll indices)
  | .neg e => do return .neg (← m.toSlots e)
  | .binary op l r => do return .binary op (← m.toSlots l) (← m.toSlots r)
  | e => .ok e
termination_by structural e => e

def toSlotsAll (m : March) : List Expr → Result (List Expr)
  | [] => .ok []
  | e :: es => do return (← m.toSlots e) :: (← m.toSlotsAll es)
termination_by structural es => es

/-- Treats the indices of one reference, each by the axis that it stands on. -/
def ringIndices (m : March) (dims : List Dimension) : List Expr → Result (List Expr)
  | [] => .ok []
  | e :: es =>
    match dims with
    | [] => .ok []
    | d :: ds =>
      let first := if d.isTime then m.slotAt e else m.toSlots e
      do return (← first) :: (← m.ringIndices ds es)
termination_by structural es => es

end

/-- Fits an expression to the ring; a march whose arrays are all saved changes nothing. -/
def toRing (m : March) (e : Expr) : Result Expr :=
  if m.hasRing then m.toSlots e else .ok e

/-- The statements that advance the slots at the top of a step: the first slot is the time counter
modulo their number, each other one past the slot before it. -/
def advanceSlots (m : March) : List Stmt :=
  if !m.hasRing then []
  else
    let order := m.order.toNat
    let count := Expr.int (Int64.ofNat (order + 1))
    let first := if m.forward then 0 else order
    let slots := List.range (order + 1)
    (if m.forward then slots else slots.reverse).map fun i =>
      let previous := if m.forward then i - 1 else i + 1
      let level : Expr := if i = first then .dim m.timeCounter
        else .binary .add (.scalar (slotScalar previous)) (.int 1)
      .assign (.scalar (slotScalar i)) (level.rem count)

end GridKernel.March
