import GridKernel.Binary64.Rounding

/-!
Arithmetic and comparison of double-precision words. An operation with a NaN operand returns the
first one, sign included; an operation without a value returns `invalid`; all other results are
rounded to nearest.
-/
namespace GridKernel.Binary64

def toFloat (x : Binary64) : Float := Float.ofBits x.bits

/-- Applies a hardware operation to operands that are numbers. -/
def lift (op : Float → Float → Float) (x y : Binary64) : Binary64 :=
  if x.isNaN then x
  else if y.isNaN then y
  else
    let r := op x.toFloat y.toFloat
    if r.isNaN then invalid else ⟨r.toBits⟩

def add : Binary64 → Binary64 → Binary64 := lift (· + ·)
def sub : Binary64 → Binary64 → Binary64 := lift (· - ·)
def mul : Binary64 → Binary64 → Binary64 := lift (· * ·)
def div : Binary64 → Binary64 → Binary64 := lift (· / ·)

def less (x y : Binary64) : Bool := decide (x.toFloat < y.toFloat)

/-- The remainder of truncated division, exact, with the sign of the dividend. -/
def truncatedRem (x y : Binary64) : Binary64 :=
  if x.isNaN then x
  else if y.isNaN then y
  else if x.isInfinite || y.isZero then invalid
  else if y.isInfinite then x
  else
    let e := min x.exponent y.exponent
    let a := x.mantissa * 2 ^ (x.exponent - e).toNat
    let b := y.mantissa * 2 ^ (y.exponent - e).toNat
    let r := a % b
    if 0 ≤ e then ofRatio x.isNegative (r * 2 ^ e.toNat) 1
    else ofRatio x.isNegative r (2 ^ (-e).toNat)

/-- The remainder that is never below zero: a negative one is raised by the divisor's magnitude. -/
def rem (x y : Binary64) : Binary64 :=
  let r := truncatedRem x y
  if r.less zero then r.add y.abs else r

/-- Maps the bit patterns of numbers to words in increasing order. -/
def orderedBits (x : Binary64) : UInt64 :=
  if x.isNegative then ~~~x.bits else x.bits ^^^ signBit

/-- The distance within which two numbers count as equal. -/
def tolerance : Binary64 := ⟨0x3cb0000000000000⟩

/-- Equality up to rounding: equal, within the tolerance, or at most four representable values
apart. -/
def close (x y : Binary64) : Bool :=
  x.toFloat == y.toFloat || decide ((x.sub y).abs.toFloat ≤ tolerance.toFloat) ||
    (x.orderedBits - y.orderedBits).toInt64.toInt.natAbs ≤ 4

/-- The signed word of an integral value, held to the range of signed words. -/
def index? (x : Binary64) : Option Int64 :=
  x.toInt?.map fun n => Int64.ofInt (max (-2 ^ 63) (min (2 ^ 63 - 1) n))

end GridKernel.Binary64
