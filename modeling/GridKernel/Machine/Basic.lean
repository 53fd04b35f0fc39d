import Std.Data.TreeMap
import GridKernel.Expr.Text
import GridKernel.Machine.Arithmetic
import GridKernel.Machine.Buffer

/-!
Machines that run kernels: the buffers, scalars and axis extents bound to names, and the indices of
the loops being run. Evaluation reads a machine and changes nothing.
-/
namespace GridKernel

structure Machine (R : Type) where
  arrays : Std.TreeMap String (Buffer R) := ∅
  scalars : Std.TreeMap String R := ∅
  sizes : Std.TreeMap String Int64 := ∅
  indices : Std.TreeMap String Int64 := ∅

instance {R : Type} : Inhabited (Machine R) := ⟨{}⟩

namespace Machine

variable {R : Type}

def bindArray (m : Machine R) (name : String) (b : Buffer R) : Machine R :=
  { m with arrays := m.arrays.insert name b }

def bindScalar (m : Machine R) (name : String) (value : R) : Machine R :=
  { m with scalars := m.scalars.insert name value }

def bindSize (m : Machine R) (name : String) (size : Int64) : Machine R :=
  { m with sizes := m.sizes.insert name size }

def bindIndex (m : Machine R) (name : String) (index : Int64) : Machine R :=
  { m with indices := m.indices.insert name index }

def bound {α : Type} (value? : Option α) (c : Cause) : Result α :=
  match value? with
  | some value => .ok value
  | none => refuse c

def array (m : Machine R) (name : String) : Result (Buffer R) :=
  bound m.arrays[name]? (.unboundArray name)

/-- The cause of an access outside a buffer. -/
def outside (name : String) (b : Buffer R) (indices : List Int64) : Cause :=
  .outOfBounds (indices.map Int64.toInt) name (b.dims.map UInt64.toNat)

/-- The word of a value that an expression gave as an index. -/
def toIndex [Arithmetic R] (e : Expr) (value : R) : Result Int64 :=
  bound (Arithmetic.index? value) (.notAnIndex e.text (Arithmetic.text value))

mutual

def eval [Arithmetic R] (m : Machine R) : Expr → Result R
  | .int n => .ok (Arithmetic.ofInt n)
  | .float x => .ok (Arithmetic.ofLiteral x)
  | .symbol name => refuse (.symbolValue name)
  | .scalar s => bound m.scalars[s.name]? (.unboundScalar s.name)
  | .dim d => Arithmetic.ofInt <$> bound m.indices[d.name]? (.notIterated d.name)
  | .size name => Arithmetic.ofInt <$> bound m.sizes[name]? (.unboundSize name)
  | .access a indices => do
    let indices ← m.evalIndices indices
    let b ← m.array a.name
    bound (b.get? indices) (outside a.name b indices)
  | .neg e => Arithmetic.neg <$> m.eval e
  | .binary op l r => do
    let x ← m.eval l
    let y ← m.eval r
    return Arithmetic.apply op x y
termination_by structural e => e

def evalIndices [Arithmetic R] (m : Machine R) : List Expr → Result (List Int64)
  | [] => .ok []
  | e :: es => do
    let i ← toIndex e (← m.eval e)
    return i :: (← m.evalIndices es)
termination_by structural es => es

end

def evalIndex [Arithmetic R] (m : Machine R) (e : Expr) : Result Int64 := do
  toIndex e (← m.eval e)

end Machine

end GridKernel
