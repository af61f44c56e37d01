import ListScheduling.Double.Basic

/-!
The shortest decimal that reads back as a given double.
-/
namespace ListScheduling.Decimal

/-- A nonnegative rational `num / den` with a positive denominator, kept unreduced. -/
structure Ratio where
  num : Nat
  den : Nat

namespace Ratio

/-- `a ≤ b`, by cross multiplication. -/
def le (a b : Ratio) : Bool := a.num * b.den ≤ b.num * a.den

/-- `a < b`, by cross multiplication. -/
def lt (a b : Ratio) : Bool := a.num * b.den < b.num * a.den

/-- The decimal `d · 10^e`. -/
def ofDecimal (d : Nat) (e : Int) : Ratio :=
  if 0 ≤ e then ⟨d * Nat.pow 10 e.toNat, 1⟩ else ⟨d, Nat.pow 10 (-e).toNat⟩

/-- The binary number `a · 2^e`. -/
def ofBinary (a : Nat) (e : Int) : Ratio :=
  if 0 ≤ e then ⟨a * Nat.pow 2 e.toNat, 1⟩ else ⟨a, Nat.pow 2 (-e).toNat⟩

/-- The largest `d` with `d · 10^e ≤ r`. -/
def floorAt (r : Ratio) (e : Int) : Nat :=
  if 0 ≤ e then r.num / (r.den * Nat.pow 10 e.toNat) else r.num * Nat.pow 10 (-e).toNat / r.den

/-- The number of decimal digits of `n`, at least one. -/
def digitCount (n : Nat) : Nat := (Nat.toDigits 10 n).length

/-- `⌊log₁₀ r⌋` for a positive `r`. With `a` and `b` the digit counts of numerator and denominator,
`r` lies strictly between `10^(a-b-1)` and `10^(a-b+1)`, so one comparison decides. -/
def decimalExponent (r : Ratio) : Int :=
  let e : Int := (digitCount r.num : Int) - (digitCount r.den : Int)
  if (ofDecimal 1 e).le r then e else e - 1

end Ratio

/-- The magnitude of a finite double as `mant · 2^exp`, with the gap to the lower neighbour's
midpoint in quarters of `2^exp`. -/
structure Binary where
  mant : Nat
  exp : Int
  lowerGap : Nat

namespace Binary

/-- Splits the bits of a finite double, sign ignored, into significand and exponent. -/
def ofBits (b : UInt64) : Binary :=
  let e := ((b >>> 52) &&& 0x7FF).toNat
  let f := (b &&& 0xFFFFFFFFFFFFF).toNat
  if e = 0 then ⟨f, -1074, 2⟩
  else ⟨f + Nat.pow 2 52, (e : Int) - 1075, if f = 0 ∧ 1 < e then 1 else 2⟩

/-- The value itself. -/
def value (x : Binary) : Ratio := Ratio.ofBinary (4 * x.mant) (x.exp - 2)

/-- The lower end of the interval that reads back as the value. -/
def low (x : Binary) : Ratio := Ratio.ofBinary (4 * x.mant - x.lowerGap) (x.exp - 2)

/-- The upper end of the interval that reads back as the value. -/
def high (x : Binary) : Ratio := Ratio.ofBinary (4 * x.mant + 2) (x.exp - 2)

/-- Whether `r` reads back as the value: inside the interval, and on an end only when the
significand is even. -/
def admits (x : Binary) (r : Ratio) : Bool :=
  if x.mant % 2 = 0 then x.low.le r && r.le x.high else x.low.lt r && r.lt x.high

/-- The grid point `d · 10^e` that reads back as the value, if one of the two around it does;
of two, the nearer, and at an exact tie the upper. -/
def onGrid (x : Binary) (e : Int) : Option Nat :=
  let v := x.value
  let d := v.floorAt e
  let below := x.admits (Ratio.ofDecimal d e)
  let above := x.admits (Ratio.ofDecimal (d + 1) e)
  if below && above then
    if Ratio.lt ⟨2 * v.num, v.den⟩ (Ratio.ofDecimal (2 * d + 1) e) then some d else some (d + 1)
  else if below then some d
  else if above then some (d + 1)
  else none

/-- The fewest significant digits that read back as a positive value: digits `d` and exponent
`e` with value `d · 10^e`. -/
def shortest (x : Binary) : Nat × Int :=
  let top := x.value.decimalExponent
  let grid (i : Nat) : Int := top - (i : Int)
  match (List.range 17).findSome? (fun i => (x.onGrid (grid i)).map (·, grid i)) with
  | some r => r
  | none => (x.value.floorAt (top - 16), top - 16)

end Binary

/-- Moves trailing zeros of `d` into the exponent: `d · 10^e` is unchanged. -/
def trimZeros (d : Nat) (e : Int) : Nat × Int :=
  if d ≠ 0 ∧ d % 10 = 0 then trimZeros (d / 10) (e + 1) else (d, e)
termination_by d
decreasing_by omega

/-- The shortest decimal `d · 10^e` that reads back as the magnitude of a finite nonzero double,
with no trailing zero in `d`. -/
def shortestDigits (x : Double) : Nat × Int :=
  let (d, e) := (Binary.ofBits x.bits).shortest
  trimZeros d e

end ListScheduling.Decimal
