/-!
Doubles as their 64-bit IEEE encodings.
-/
namespace ListScheduling

/-- A double, as its IEEE 754 binary64 encoding. -/
structure Double where
  bits : UInt64
deriving DecidableEq, Inhabited, Repr

namespace Double

/-- The sign bit. -/
def signMask : UInt64 := 0x8000000000000000

/-- The exponent field, all ones for infinities and NaNs. -/
def exponentMask : UInt64 := 0x7FF0000000000000

/-- Whether the sign bit is set: negative numbers, `-0.0` and negative NaNs. -/
def signBit (x : Double) : Bool := Nat.pow 2 63 ≤ x.bits.toNat

/-- The biased exponent: `0` for zeros and subnormal numbers, `2047` for infinities and
NaNs. -/
def exponentField (x : Double) : Nat := x.bits.toNat / Nat.pow 2 52 % Nat.pow 2 11

/-- The trailing significand field. -/
def fractionField (x : Double) : Nat := x.bits.toNat % Nat.pow 2 52

/-- Whether the value is a NaN: exponent all ones and a nonzero fraction. -/
def isNaN (x : Double) : Bool := x.exponentField = 2047 && x.fractionField != 0

/-- Whether the value is an infinity. -/
def isInf (x : Double) : Bool := x.exponentField = 2047 && x.fractionField = 0

/-- Whether the value is a number, neither infinite nor NaN. -/
def isFinite (x : Double) : Bool := x.exponentField != 2047

/-- Whether the value is `+0.0` or `-0.0`. -/
def isZero (x : Double) : Bool := x.exponentField = 0 && x.fractionField = 0

/-- `+0.0`. -/
def zero : Double := ⟨0⟩

/-- `-0.0`, the neutral element of addition: `-0 + x = x` for every `x`, signed zeros
included. -/
def negZero : Double := ⟨0x8000000000000000⟩

/-- `+∞`. -/
def inf : Double := ⟨0x7FF0000000000000⟩

/-- The positive quiet NaN. -/
def nan : Double := ⟨0x7FF8000000000000⟩

/-- The quiet NaN with the sign bit set: the result of an invalid operation on numbers. -/
def defaultNaN : Double := ⟨0xFFF8000000000000⟩

/-- Negation flips the sign bit and nothing else. -/
def neg (x : Double) : Double := ⟨x.bits ^^^ signMask⟩

instance : Neg Double := ⟨neg⟩

/-- The host double with the same encoding; used for arithmetic on numbers only. -/
def toFloat (x : Double) : Float := Float.ofBits x.bits

/-- The encoding of a host double. -/
def ofFloat (f : Float) : Double := ⟨f.toBits⟩

/-- The nearest double to a natural number. -/
def ofNat (n : Nat) : Double := ofFloat (Float.ofNat n)

/-- A NaN made quiet: the leading significand bit set. -/
def quiet (x : Double) : Double := ⟨x.bits ||| 0x0008000000000000⟩

/-- The key whose order is the IEEE total order: a negative encoding is reflected, so that a
larger magnitude gives a smaller key, and a positive one is moved above every negative one. -/
def totalKey (x : Double) : Nat :=
  if x.signBit then Nat.pow 2 64 - 1 - x.bits.toNat else x.bits.toNat + Nat.pow 2 63

/-- The integer significand of a finite double: the fraction, with the leading bit of a normal
number. -/
def significand (x : Double) : Nat :=
  if x.exponentField = 0 then x.fractionField else x.fractionField + Nat.pow 2 52

/-- The exponent of the last significand place of a finite double, which is
`± significand · 2 ^ lastPlace`. -/
def lastPlace (x : Double) : Int :=
  if x.exponentField = 0 then -1074 else x.exponentField - 1075

/-- The signed significand of a finite double counted in units of `2 ^ q`, for `q` not above
its last place. -/
def scaledTo (x : Double) (q : Int) : Int :=
  let m : Int := x.significand * Int.pow 2 (x.lastPlace - q).toNat
  if x.signBit then -m else m

/-- The double with the given sign, a significand `m < 2 ^ 53` and last place `q`, or the infinity
of that sign when `q` lies beyond the largest exponent. -/
def encode (neg : Bool) (m : Nat) (q : Int) : Double :=
  let sign : Nat := if neg then Nat.pow 2 63 else 0
  if 971 < q then ⟨UInt64.ofNat (sign + 2047 * Nat.pow 2 52)⟩
  else if m < Nat.pow 2 52 then ⟨UInt64.ofNat (sign + m)⟩
  else ⟨UInt64.ofNat (sign + (q + 1075).toNat * Nat.pow 2 52 + (m - Nat.pow 2 52))⟩

/-- The double nearest to `± m · 2 ^ q`, the one with an even significand on a tie. -/
def roundScaled (neg : Bool) (m : Nat) (q : Int) : Double :=
  let last := max (q + ((m.log2 + 1 : Nat) : Int) - 53) (-1074)
  if last ≤ q then encode neg (m * Nat.pow 2 (q - last).toNat) last
  else
    let unit := Nat.pow 2 (last - q).toNat
    let low := m / unit
    let rest := m % unit
    let r := if unit < 2 * rest ∨ (2 * rest = unit ∧ low % 2 = 1) then low + 1 else low
    if r = Nat.pow 2 53 then encode neg (Nat.pow 2 52) (last + 1) else encode neg r last

/-- The sum of two finite doubles, rounded. An exact zero is `-0.0` only when both operands are
negative, so `x + -x = 0.0` and `-0.0 + -0.0 = -0.0`. -/
def addFinite (x y : Double) : Double :=
  let q := min x.lastPlace y.lastPlace
  let s := x.scaledTo q + y.scaledTo q
  if s = 0 then (if x.signBit && y.signBit then negZero else zero)
  else roundScaled (s < 0) s.natAbs q

/-- IEEE addition. A NaN operand, the first one if both are, gives the result, made quiet;
infinities of opposite signs give the default NaN, and an infinity absorbs a finite operand. -/
def add (x y : Double) : Double :=
  if x.isNaN then x.quiet
  else if y.isNaN then y.quiet
  else if x.isInf then (if y.isInf && x.signBit != y.signBit then defaultNaN else x)
  else if y.isInf then y
  else addFinite x y

/-- An arithmetic operation: a NaN operand, the first one if both are, gives the result; two
numbers go to the host's IEEE operation, and a NaN it yields is the default NaN. -/
def lift (op : Float → Float → Float) (x y : Double) : Double :=
  if x.isNaN then x.quiet
  else if y.isNaN then y.quiet
  else
    let r := ofFloat (op x.toFloat y.toFloat)
    if r.isNaN then defaultNaN else r

/-- IEEE subtraction: a NaN operand, the first if both are, gives the result made quiet; numbers
are subtracted by adding the negated second one. -/
def sub (x y : Double) : Double :=
  if x.isNaN then x.quiet
  else if y.isNaN then y.quiet
  else add x (-y)

instance : Add Double := ⟨add⟩
instance : Sub Double := ⟨sub⟩
instance : Mul Double := ⟨lift (· * ·)⟩
instance : Div Double := ⟨lift (· / ·)⟩

/-- Numeric `x < y`; false when either is a NaN, and `-0.0 < 0.0` is false. Apart from the
two zeros, numbers are ordered as their total order keys. -/
def lt (x y : Double) : Bool :=
  !x.isNaN && !y.isNaN && !(x.isZero && y.isZero) && decide (x.totalKey < y.totalKey)

/-- Numeric `x ≤ y`; false when either is a NaN. -/
def le (x y : Double) : Bool :=
  !x.isNaN && !y.isNaN && (x.isZero && y.isZero || decide (x.totalKey ≤ y.totalKey))

/-- Numeric equality: a NaN equals nothing, and the two zeros are equal. -/
def numEq (x y : Double) : Bool := !x.isNaN && !y.isNaN && (x.isZero && y.isZero || x == y)

/-- The sum of a list, added from the left starting at `-0.0`; so the empty sum is `-0.0` and a
sum of zeros keeps the sign they share. -/
def listSum (xs : List Double) : Double := xs.foldl (· + ·) negZero

/-- The least integer not below a number; `none` for infinities and NaNs. -/
def ceilInt? (x : Double) : Option Int :=
  if !x.isFinite then none
  else
    let m := x.significand
    let q := x.lastPlace
    if 0 ≤ q then
      let n : Int := m * Int.pow 2 q.toNat
      some (if x.signBit then -n else n)
    else
      let d := Int.pow 2 (-q).toNat
      let whole : Int := m / d
      some (if x.signBit then -whole else if m % d = 0 then whole else whole + 1)

end Double

end ListScheduling
