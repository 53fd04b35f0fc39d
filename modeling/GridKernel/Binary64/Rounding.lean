import GridKernel.Binary64.Basic

/-!
Rounding of exact ratios and integers to the nearest double-precision word, a tie going to the even
mantissa.
-/
namespace GridKernel.Binary64

/-- The quotient rounded to the nearest integer, a tie to the even one. -/
def roundDiv (num den : Nat) : Nat :=
  let q := num / den
  let r := num % den
  if 2 * r < den then q
  else if 2 * r = den then q + q % 2
  else q + 1

/-- The exponent `k` with `2^k ≤ num / den < 2^(k+1)`, for a positive ratio. -/
def floorLog (num den : Nat) : Int :=
  let k : Int := (num.log2 : Int) - den.log2
  let reached := if 0 ≤ k then den * 2 ^ k.toNat ≤ num else den ≤ num * 2 ^ (-k).toNat
  if reached then k else k - 1

/-- The word nearest to `num / den`; a ratio past the largest finite word gives infinity. A carry
out of the mantissa moves into the exponent field, where it belongs. -/
def ofRatio (negative : Bool) (num den : Nat) : Binary64 :=
  let magnitude : Nat :=
    if num = 0 then 0
    else
      let e := max (-1074) (floorLog num den - 52)
      let m := if 0 ≤ e then roundDiv num (den * 2 ^ e.toNat)
        else roundDiv (num * 2 ^ (-e).toNat) den
      if m < 2 ^ 52 then m else m - 2 ^ 52 + (e + 1075).toNat * 2 ^ 52
  let word : Binary64 := ⟨UInt64.ofNat (min magnitude infinity.bits.toNat)⟩
  if negative then word.neg else word

/-- The word nearest to an integer. -/
def ofInt (n : Int) : Binary64 := ofRatio (decide (n < 0)) n.natAbs 1

/-- The word nearest to `digits · 10^power`. Powers so large that no finite word is near, or so
small that zero is nearest, are decided without raising ten to them. -/
def ofDecimal (negative : Bool) (digits : Nat) (power : Int) : Binary64 :=
  if digits = 0 ∨ power < -400 - (digits.log2 : Int) then ofRatio negative 0 1
  else if 400 < power then ofRatio negative (10 ^ 400) 1
  else if 0 ≤ power then ofRatio negative (digits * 10 ^ power.toNat) 1
  else ofRatio negative digits (10 ^ (-power).toNat)

end GridKernel.Binary64
