/-!
Double-precision words. A word is its bit pattern, so equality of words is decidable and keeps the
sign of a zero and of a NaN. A finite word denotes `±m · 2^e`, with `m` and `e` read from its
fields.
-/
namespace GridKernel

-- Powers of naturals and integers are the core ones, also below the monoids of Mathlib.
attribute [instance (high + 1), default_instance (high + 1)] instPowNat

structure Binary64 where
  bits : UInt64
deriving DecidableEq, Repr, Inhabited

namespace Binary64

def signBit : UInt64 := 0x8000000000000000

def isNegative (x : Binary64) : Bool := x.bits &&& signBit != 0

/-- The word without its sign. -/
def abs (x : Binary64) : Binary64 := ⟨x.bits &&& 0x7fffffffffffffff⟩

def neg (x : Binary64) : Binary64 := ⟨x.bits ^^^ signBit⟩

/-- The biased exponent field, 0 to 2047. -/
def exponentField (x : Binary64) : Nat := (x.abs.bits >>> 52).toNat

def fraction (x : Binary64) : Nat := (x.bits &&& 0xfffffffffffff).toNat

def zero : Binary64 := ⟨0⟩

/-- Positive infinity. -/
def infinity : Binary64 := ⟨0x7ff0000000000000⟩

/-- The NaN that a literal denotes. -/
def nan : Binary64 := ⟨0x7ff8000000000000⟩

/-- The NaN of an operation without a value, such as 0 divided by 0. -/
def invalid : Binary64 := ⟨0xfff8000000000000⟩

def isFinite (x : Binary64) : Bool := x.exponentField != 2047

def isNaN (x : Binary64) : Bool := !x.isFinite && x.fraction != 0

def isInfinite (x : Binary64) : Bool := !x.isFinite && x.fraction == 0

def isZero (x : Binary64) : Bool := x.abs.bits == 0

/-- The integer mantissa of a finite word. -/
def mantissa (x : Binary64) : Nat :=
  if x.exponentField = 0 then x.fraction else 2 ^ 52 + x.fraction

/-- The exponent of a finite word, on a mantissa taken as an integer. -/
def exponent (x : Binary64) : Int :=
  if x.exponentField = 0 then -1074 else x.exponentField - 1075

/-- The integer that a finite word denotes, if it denotes one. -/
def toInt? (x : Binary64) : Option Int :=
  let signed (n : Nat) : Int := if x.isNegative then -n else n
  if !x.isFinite then none
  else
    let shift := x.exponent
    if 0 ≤ shift then some (signed (x.mantissa * 2 ^ shift.toNat))
    else if x.mantissa % 2 ^ (-shift).toNat = 0 then
      some (signed (x.mantissa / 2 ^ (-shift).toNat))
    else none

/-- Equality of literals: a NaN equals any NaN, and the two zeros are equal. -/
def same (x y : Binary64) : Bool :=
  x.bits == y.bits || (x.isNaN && y.isNaN) || (x.isZero && y.isZero)

@[simp] theorem same_self (x : Binary64) : x.same x = true := by simp [same]

end Binary64

end GridKernel
