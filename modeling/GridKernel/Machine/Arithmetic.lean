import GridKernel.Binary64.Arithmetic
import GridKernel.Binary64.Text
import GridKernel.Expr.Basic

/-!
The values that a machine computes with. A kernel is run over any type with these operations; the
running instance is double precision.
-/
namespace GridKernel

class Arithmetic (R : Type) where
  ofInt : Int64 → R
  ofLiteral : Binary64 → R
  neg : R → R
  add : R → R → R
  sub : R → R → R
  mul : R → R → R
  div : R → R → R
  /-- The remainder that is never below zero. -/
  rem : R → R → R
  less : R → R → Bool
  /-- Equality up to rounding. -/
  close : R → R → Bool
  /-- The word of an integral value. -/
  index? : R → Option Int64
  text : R → String

namespace Arithmetic

variable {R : Type} [Arithmetic R]

def zero : R := ofInt 0

def ofBool (b : Bool) : R := if b then ofInt 1 else ofInt 0

/-- A value counts as true unless it is close to zero. -/
def isTrue (x : R) : Bool := !close x zero

def apply (op : BinaryOp) (x y : R) : R :=
  match op with
  | .add => add x y
  | .sub => sub x y
  | .mul => mul x y
  | .div => div x y
  | .rem => rem x y
  | .eq => ofBool (close x y)
  | .ne => ofBool (!close x y)
  | .lt => ofBool (less x y)
  | .gt => ofBool (less y x)

end Arithmetic

instance : Arithmetic Binary64 where
  ofInt n := Binary64.ofInt n.toInt
  ofLiteral x := x
  neg := Binary64.neg
  add := Binary64.add
  sub := Binary64.sub
  mul := Binary64.mul
  div := Binary64.div
  rem := Binary64.rem
  less := Binary64.less
  close := Binary64.close
  index? := Binary64.index?
  text := Binary64.plain

end GridKernel
