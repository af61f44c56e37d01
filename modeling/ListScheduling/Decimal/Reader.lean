import ListScheduling.Decimal.Shortest

/-!
Reading doubles from decimal text.
-/
namespace ListScheduling.Decimal

/-- `⌊log₂ (num / den)⌋` for positive `num` and `den`. -/
def binaryExponent (num den : Nat) : Int :=
  let e : Int := (num.log2 : Int) - (den.log2 : Int)
  if (Ratio.ofBinary 1 e).le ⟨num, den⟩ then e else e - 1

/-- `num / den` rounded to an integer, a half going to the even neighbour. -/
def roundHalfEven (num den : Nat) : Nat :=
  let q := num / den
  let r := num % den
  if 2 * r < den then q
  else if den < 2 * r then q + 1
  else if q % 2 = 0 then q else q + 1

/-- The bits of the double nearest to the positive rational `num / den`, ties to even; values beyond
the largest double round to infinity. -/
def nearestBits (num den : Nat) : UInt64 :=
  let top := binaryExponent num den
  let exp : Int := if top < -1022 then -1074 else top - 52
  let scaled (q : Int) : Nat :=
    if 0 ≤ q then roundHalfEven num (den * Nat.pow 2 q.toNat)
    else roundHalfEven (num * Nat.pow 2 (-q).toNat) den
  let m := scaled exp
  if exp = -1074 then m.toUInt64
  else
    let (m, exp) := if m = Nat.pow 2 53 then (Nat.pow 2 52, exp + 1) else (m, exp)
    if 971 < exp then 0x7FF0000000000000
    else ((exp + 1075).toNat.toUInt64 <<< 52) ||| (m - Nat.pow 2 52).toUInt64

/-- The double nearest to `M · 10^X`. Beyond `10^310` every value is infinite and below
`10^-330` every value rounds to zero, so the exponent is tested before any power is formed. -/
def nearest (m : Nat) (x : Int) : Double :=
  let size : Int := x + (Ratio.digitCount m : Int)
  if m = 0 || size < -330 then Double.zero
  else if 310 < size then Double.inf
  else
    let r := Ratio.ofDecimal m x
    ⟨nearestBits r.num r.den⟩

/-- The value of a run of decimal digits. -/
def digitsValue (ds : List Char) : Nat :=
  ds.foldl (fun n c => 10 * n + (c.toNat - '0'.toNat)) 0

/-- Splits off a leading run of decimal digits. -/
def spanDigits (cs : List Char) : List Char × List Char :=
  (cs.takeWhile Char.isDigit, cs.dropWhile Char.isDigit)

/-- Splits off an optional sign; `true` for a minus. -/
def spanSign : List Char → Bool × List Char
  | '-' :: rest => (true, rest)
  | '+' :: rest => (false, rest)
  | rest => (false, rest)

/-- The exponent part of a decimal, if the text is empty or a complete exponent. -/
def exponentPart? : List Char → Option Int
  | [] => some 0
  | c :: rest =>
    if c = 'e' ∨ c = 'E' then
      let (negative, rest) := spanSign rest
      let (ds, tail) := spanDigits rest
      if ds.isEmpty || !tail.isEmpty then none
      else if negative then some (-(digitsValue ds : Int)) else some (digitsValue ds)
    else none

/-- A decimal without sign as `(M, X)` with value `M · 10^X`. -/
def decimalPart? (cs : List Char) : Option (Nat × Int) :=
  let (whole, rest) := spanDigits cs
  let (frac, rest) := match rest with
    | '.' :: tail => spanDigits tail
    | _ => ([], rest)
  if whole.isEmpty && frac.isEmpty then none
  else (exponentPart? rest).map fun x => (digitsValue (whole ++ frac), x - frac.length)

/-- The special values, compared without regard to case. -/
def special? (cs : List Char) : Option Double :=
  let lower := String.ofList (cs.map Char.toLower)
  if lower = "inf" || lower = "infinity" then some Double.inf
  else if lower = "nan" then some Double.nan
  else none

/-- Reads a double from text, or `none` when the text is not of the accepted form. -/
def parse? (s : String) : Option Double :=
  let (negative, rest) := spanSign s.toList
  let magnitude := match special? rest with
    | some v => some v
    | none => (decimalPart? rest).map fun (m, x) => nearest m x
  magnitude.map fun v => if negative then -v else v

end ListScheduling.Decimal
