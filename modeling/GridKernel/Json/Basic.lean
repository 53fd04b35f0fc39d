import GridKernel.Binary64.Arithmetic
import GridKernel.Binary64.Shortest

/-!
JSON values. A number is kept as it is written; whether it denotes an integer or a double-precision
word is decided where it is used. The text of a string is absent when the string holds an unpaired
surrogate escape: such a string can be skipped but not read.
-/
namespace GridKernel.Json

/-- A number as written: sign, digits before the point, digits after it, and the sign and digits of
an exponent. -/
structure Numeral where
  negative : Bool
  whole : List Char
  fraction : List Char := []
  exponent? : Option (Bool × List Char) := none
deriving DecidableEq, Repr, Inhabited

namespace Numeral

def ofNat (n : Nat) : Numeral := ⟨false, Nat.toDigits 10 n, [], none⟩

def ofInt (n : Int) : Numeral := ⟨decide (n < 0), Nat.toDigits 10 n.natAbs, [], none⟩

/-- A decimal as a number with a point or an exponent. The point may follow up to 16 digits, or
stand before fewer than five zeros; otherwise one digit stands before it. -/
def ofDecimal (negative : Bool) (d : Binary64.Decimal) : Numeral :=
  let s := Nat.toDigits 10 d.digits
  let point : Int := s.length + d.power
  if 0 ≤ d.power ∧ point ≤ 16 then ⟨negative, s ++ List.replicate d.power.toNat '0', ['0'], none⟩
  else if 0 < point ∧ point ≤ 16 then ⟨negative, s.take point.toNat, s.drop point.toNat, none⟩
  else if -5 < point ∧ point ≤ 0 then
    ⟨negative, ['0'], List.replicate (-point).toNat '0' ++ s, none⟩
  else
    let e := point - 1
    ⟨negative, s.take 1, s.drop 1, some (decide (e < 0), Nat.toDigits 10 e.natAbs)⟩

/-- The shortest number that reads back as a finite word. -/
def ofBinary64 (x : Binary64) : Numeral :=
  if x.isZero then ⟨x.isNegative, ['0'], ['0'], none⟩ else ofDecimal x.isNegative x.shortest

def text (n : Numeral) : String :=
  let sign := if n.negative then "-" else ""
  let fraction := if n.fraction.isEmpty then "" else "." ++ String.ofList n.fraction
  let exponent := match n.exponent? with
    | some (negative, digits) => (if negative then "e-" else "e") ++ String.ofList digits
    | none => ""
  sign ++ String.ofList n.whole ++ fraction ++ exponent

def digit (c : Char) : Nat := c.toNat - '0'.toNat

def value (digits : List Char) : Nat := digits.foldl (fun n c => 10 * n + digit c) 0

/-- Whether a number is written without a point and an exponent. -/
def isInteger (n : Numeral) : Bool := n.fraction.isEmpty && n.exponent?.isNone

/-- The integer of a number written as one. Minus zero is no integer. -/
def int? (n : Numeral) : Option Int :=
  let v := value n.whole
  if !n.isInteger then none
  else if n.negative then if v = 0 then none else some (-v)
  else some v

/-- The word nearest to a number. -/
def nearest (n : Numeral) : Binary64 :=
  let e : Int := match n.exponent? with
    | some (true, digits) => -(value digits : Int)
    | some (false, digits) => value digits
    | none => 0
  .ofDecimal n.negative (value (n.whole ++ n.fraction)) (e - n.fraction.length)

/-- Appends digits to a significand while it fits an unsigned word, and counts those appended. -/
def appendDigits (significand count : Nat) : List Char → Nat × Nat
  | [] => (significand, count)
  | c :: cs =>
    let next := 10 * significand + digit c
    if next < 2 ^ 64 then appendDigits next (count + 1) cs else (significand, count)

/-- Scales a word by a power of ten in at most a few steps of hardware arithmetic. Too large a
result is refused; too small a one becomes zero. -/
def scale : Nat → Binary64 → Int → Option Binary64
  | 0, _, _ => some .zero
  | fuel + 1, x, power =>
    if power.natAbs ≤ 308 then
      let ten := Binary64.ofRatio false (10 ^ power.natAbs) 1
      if 0 ≤ power then
        let y := x.mul ten
        if y.isInfinite then none else some y
      else some (x.div ten)
    else if x.isZero then some x
    else if 0 ≤ power then none
    else scale fuel (x.div (Binary64.ofRatio false (10 ^ 308) 1)) (power + 308)

/-- The word of a number by the reader's rule: the leading digits that fit an unsigned word, scaled
by one power of ten. It is the nearest word whenever the significand is at most 2^53 and the power
at most 22 in magnitude. An exponent past the range of a 32-bit word is refused or gives zero. -/
def double? (n : Numeral) : Option Binary64 :=
  let signed (x : Binary64) := if n.negative then x.neg else x
  let (s, wholeCount) := appendDigits 0 0 n.whole
  let (s, fractionCount) := appendDigits s 0 n.fraction
  let start : Int := (n.whole.length - wholeCount : Nat) - (fractionCount : Int)
  let x := Binary64.ofRatio false s 1
  match n.exponent? with
  | none => (scale 4 x start).map signed
  | some (negative, digits) =>
    let e := value digits
    if 2 ^ 31 ≤ e then if s ≠ 0 ∧ !negative then none else some (signed .zero)
    else (scale 4 x (if negative then start - e else start + e)).map signed

end Numeral

end GridKernel.Json

namespace GridKernel

inductive Json where
  | null
  | bool (b : Bool)
  | number (n : Json.Numeral)
  | string (text? : Option String)
  | array (items : List Json)
  | object (fields : List (Option String × Json))
deriving Inhabited

namespace Json

def str (s : String) : Json := string (some s)

def nat (n : Nat) : Json := number (.ofNat n)

def int (n : Int) : Json := number (.ofInt n)

def obj (fields : List (String × Json)) : Json :=
  object (fields.map fun (key, value) => (some key, value))

/-- A finite word as a number; words without a number are null. -/
def double (x : Binary64) : Json := if x.isFinite then number (.ofBinary64 x) else null

end Json

end GridKernel
