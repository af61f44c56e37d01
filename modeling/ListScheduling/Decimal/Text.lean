import ListScheduling.Decimal.Shortest

/-!
Decimal text of doubles, as messages show them.
-/
namespace ListScheduling.Decimal

/-- Positional text of `d · 10^e`: the digits of `d` followed by `e` zeros, or with a point
`-e` places from the right, padded with leading zeros. -/
def positional (d : Nat) (e : Int) : String :=
  let digits := (toString d).toList
  if 0 ≤ e then
    String.ofList (digits ++ List.replicate e.toNat '0')
  else
    let places := (-e).toNat
    if places < digits.length then
      String.ofList (digits.take (digits.length - places) ++ '.' :: digits.drop (digits.length - places))
    else
      String.ofList ('0' :: '.' :: List.replicate (places - digits.length) '0' ++ digits)

/-- The text of a double: `NaN`, `inf`, `-inf`, or a sign for negative values (and `-0`)
followed by the shortest positional digits. -/
def display (x : Double) : String :=
  if x.isNaN then "NaN"
  else
    let sign := if x.signBit then "-" else ""
    if x.isInf then sign ++ "inf"
    else if x.isZero then sign ++ "0"
    else
      let (d, e) := shortestDigits x
      sign ++ positional d e

end ListScheduling.Decimal
