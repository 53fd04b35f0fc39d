import GridKernel.Binary64.Basic

/-!
The shortest decimal that reads back as a given positive finite word: the fewest digits that lie in
the interval of reals rounding to the word, and of those the nearest. The interval holds its ends
when the mantissa is even.
-/
namespace GridKernel.Binary64

/-- A decimal `digits · 10^power`. -/
structure Decimal where
  digits : Nat
  power : Int
deriving DecidableEq, Repr, Inhabited

/-- The reals `low/den` to `high/den` that round to a word, which itself is `mid/den`. -/
structure RoundingInterval where
  low : Nat
  mid : Nat
  high : Nat
  den : Nat
  closed : Bool

/-- The gap below a power of two is half the gap above it, so four units are taken to the mantissa
step. -/
def roundingInterval (x : Binary64) : RoundingInterval :=
  let m := x.mantissa
  let below := if m = 2 ^ 52 then 1 else 2
  let e := x.exponent - 2
  let scale := if 0 ≤ e then 2 ^ e.toNat else 1
  let den := if 0 ≤ e then 1 else 2 ^ (-e).toNat
  ⟨(4 * m - below) * scale, 4 * m * scale, (4 * m + 2) * scale, den, m % 2 == 0⟩

namespace RoundingInterval

/-- Whether `n · num / (den · unit)` lies in the interval, the ratio being taken to its terms. -/
def holds (i : RoundingInterval) (num unit : Nat) : Bool :=
  let v := num * i.den
  if i.closed then i.low * unit ≤ v && v ≤ i.high * unit
  else i.low * unit < v && v < i.high * unit

/-- The neighbours of the word on the grid of multiples of `10^power` that lie in the interval; of
two, the nearer, and the upper at equal distance. -/
def onGrid? (i : RoundingInterval) (power : Int) : Option Nat :=
  let up := if 0 ≤ power then 10 ^ power.toNat else 1
  let down := if 0 ≤ power then 1 else 10 ^ (-power).toNat
  let step := up * i.den
  let scaled := i.mid * down
  let n := scaled / step
  let r := scaled % step
  let lower := i.holds (n * up) down
  let upper := i.holds ((n + 1) * up) down
  match lower, upper with
  | true, true => some (if 2 * r < step then n else n + 1)
  | true, false => some n
  | false, true => some (n + 1)
  | false, false => none

/-- The first grid with a hit, from the coarsest. -/
def firstHit (i : RoundingInterval) : List Int → Option Decimal
  | [] => none
  | p :: ps =>
    match i.onGrid? p with
    | some n => some ⟨n, p⟩
    | none => i.firstHit ps

end RoundingInterval

/-- The number of decimal digits before the point, or minus the number of zeros after it. -/
def decimalLength (num den : Nat) : Int :=
  if den ≤ num then (Nat.toDigits 10 (num / den)).length
  else 1 - (Nat.toDigits 10 (den / num)).length

/-- Drops trailing zeros from the digits, so that the last digit is not zero. -/
def Decimal.trim (d : Decimal) : Nat → Decimal
  | 0 => d
  | fuel + 1 =>
    if d.digits ≠ 0 ∧ d.digits % 10 = 0 then trim ⟨d.digits / 10, d.power + 1⟩ fuel else d

/-- The shortest decimal of a positive finite word. Eighteen grids from the leading digit on are
enough, since seventeen digits tell any two words apart. -/
def shortest (x : Binary64) : Decimal :=
  let i := x.roundingInterval
  let length := decimalLength i.mid i.den
  let grids := (List.range 19).map fun (n : Nat) => length + 1 - (n : Int)
  match i.firstHit grids with
  | some d => d.trim 400
  | none => ⟨0, 0⟩

end GridKernel.Binary64
