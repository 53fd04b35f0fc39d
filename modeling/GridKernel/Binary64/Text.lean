import GridKernel.Binary64.Rounding
import GridKernel.Binary64.Shortest

/-!
Texts of double-precision words. `plain` is the shortest decimal in positional notation, `literal`
shows an integral value exactly and with one decimal place. `ofText?` reads a decimal, rounding
correctly.
-/
namespace GridKernel.Binary64

private def zeros (n : Nat) : String := String.ofList (List.replicate n '0')

/-- A decimal without an exponent. -/
def Decimal.positional (d : Decimal) : String :=
  let s := Nat.toDigits 10 d.digits
  if 0 ≤ d.power then String.ofList s ++ zeros d.power.toNat
  else
    let places := (-d.power).toNat
    if places < s.length then
      String.ofList (s.take (s.length - places)) ++ "." ++
        String.ofList (s.drop (s.length - places))
    else "0." ++ zeros (places - s.length) ++ String.ofList s

private def signText (x : Binary64) : String := if x.isNegative then "-" else ""

def plain (x : Binary64) : String :=
  if x.isNaN then "NaN"
  else if x.isInfinite then x.signText ++ "inf"
  else if x.isZero then x.signText ++ "0"
  else x.signText ++ x.shortest.positional

def literal (x : Binary64) : String :=
  match x.toInt? with
  | some n => s!"{x.signText}{n.natAbs}.0"
  | none => x.plain

/-- Digits at the front of a text, with their value and number. -/
def spanDigits (cs : List Char) : Nat × Nat × List Char :=
  let ds := cs.takeWhile Char.isDigit
  (ds.foldl (fun n c => 10 * n + (c.toNat - '0'.toNat)) 0, ds.length, cs.drop ds.length)

private def ofSigned (negative : Bool) (cs : List Char) : Option Binary64 :=
  let signed (x : Binary64) := if negative then x.neg else x
  let word := String.ofList (cs.map Char.toLower)
  if word == "nan" then some (signed nan)
  else if word == "inf" || word == "infinity" then some (signed infinity)
  else
    let (whole, wholeCount, rest) := spanDigits cs
    let (part, partCount, rest) := match rest with
      | '.' :: cs => spanDigits cs
      | _ => (0, 0, rest)
    let digits := whole * 10 ^ partCount + part
    if wholeCount + partCount = 0 then none
    else
      let finish (power : Int) : Option Binary64 :=
        some (ofDecimal negative digits (power - partCount))
      match rest with
      | [] => finish 0
      | e :: rest =>
        if e != 'e' && e != 'E' then none
        else
          let (down, rest) := match rest with
            | '-' :: cs => (true, cs)
            | '+' :: cs => (false, cs)
            | _ => (false, rest)
          match spanDigits rest with
          | (n, count, []) => if count = 0 then none else finish (if down then -n else n)
          | _ => none

/-- The word nearest to a decimal text. -/
def ofText? (text : String) : Option Binary64 :=
  match text.toList with
  | '-' :: cs => ofSigned true cs
  | '+' :: cs => ofSigned false cs
  | cs => ofSigned false cs

end GridKernel.Binary64
