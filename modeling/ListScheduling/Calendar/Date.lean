import ListScheduling.Double.Basic

/-!
Calendar dates of the proleptic Gregorian calendar.
-/
namespace ListScheduling

/-- A day of the calendar. -/
structure Date where
  year : Int
  month : Nat
  day : Nat
deriving DecidableEq, Repr, Inhabited

namespace Date

/-- Whether a year has 29 February. -/
def isLeapYear (y : Int) : Bool := y % 4 = 0 && (y % 100 ≠ 0 || y % 400 = 0)

/-- The number of days of a month. -/
def monthLength (y : Int) (m : Nat) : Nat :=
  match m with
  | 2 => if isLeapYear y then 29 else 28
  | 4 | 6 | 9 | 11 => 30
  | _ => 31

/-- Whether the fields name a day of the calendar. -/
def isValid (d : Date) : Bool := 1 ≤ d.month && d.month ≤ 12 && 1 ≤ d.day && d.day ≤ monthLength d.year d.month

/-- The day number, counted from 1970-01-01. -/
def toDays (d : Date) : Int :=
  let y : Int := if d.month ≤ 2 then d.year - 1 else d.year
  let era := y / 400
  let yoe := y - era * 400
  let mp : Int := if 2 < d.month then (d.month : Int) - 3 else (d.month : Int) + 9
  let doy := (153 * mp + 2) / 5 + (d.day : Int) - 1
  let doe := yoe * 365 + yoe / 4 - yoe / 100 + doy
  era * 146097 + doe - 719468

/-- The date of a day number. -/
def ofDays (n : Int) : Date :=
  let z := n + 719468
  let era := z / 146097
  let doe := z - era * 146097
  let yoe := (doe - doe / 1460 + doe / 36524 - doe / 146096) / 365
  let doy := doe - (365 * yoe + yoe / 4 - yoe / 100)
  let mp := (5 * doy + 2) / 153
  let day := doy - (153 * mp + 2) / 5 + 1
  let month := if mp < 10 then mp + 3 else mp - 9
  let year := yoe + era * 400 + (if month ≤ 2 then 1 else 0)
  ⟨year, month.toNat, day.toNat⟩

/-- The first day that has a date. -/
def first : Date := ⟨-262143, 1, 1⟩

/-- The last day that has a date. -/
def last : Date := ⟨262142, 12, 31⟩

/-- The date `n` days after `d` (before, for negative `n`), if it exists. -/
def addDays? (d : Date) (n : Int) : Option Date :=
  let z := d.toDays + n
  if first.toDays ≤ z && z ≤ last.toDays then some (ofDays z) else none

/-- The date a time after `start` falls on: the time is rounded up to whole days, and a NaN
time counts as no days. -/
def project? (start : Date) (time : Double) : Option Date :=
  if time.isNaN then some start
  else (time.ceilInt?).bind start.addDays?

/-- A number with at least `width` digits, padded with zeros. -/
def padded (width n : Nat) : String :=
  let s := toString n
  String.ofList (List.replicate (width - s.length) '0') ++ s

/-- The text `YYYY-MM-DD` of a date. -/
def format (d : Date) : String :=
  let year :=
    if 0 ≤ d.year && d.year ≤ 9999 then padded 4 d.year.toNat
    else (if d.year < 0 then "-" else "+") ++ padded 4 d.year.natAbs
  year ++ "-" ++ padded 2 d.month ++ "-" ++ padded 2 d.day

/-- Splits off between `lo` and `hi` leading decimal digits, as many as there are. -/
def spanNumber (lo hi : Nat) (cs : List Char) : Option (Nat × List Char) :=
  let ds := (cs.takeWhile Char.isDigit).take hi
  if ds.length < lo then none
  else some (ds.foldl (fun n c => 10 * n + (c.toNat - '0'.toNat)) 0, cs.drop ds.length)

/-- Whether a character has the Unicode White_Space property. -/
def isSpace (c : Char) : Bool :=
  let n := c.toNat
  (9 ≤ n && n ≤ 13) || n == 32 || n == 0x85 || n == 0xA0 || n == 0x1680 ||
    (0x2000 ≤ n && n ≤ 0x200A) || n == 0x2028 || n == 0x2029 || n == 0x202F || n == 0x205F ||
    n == 0x3000

/-- Reads a date written `Y-M-D`. -/
def parse? (s : String) : Option Date := do
  let cs := s.toList.dropWhile isSpace
  let (year, rest) ← match cs with
    | '+' :: r => (spanNumber 1 r.length r).map fun (n, r) => ((n : Int), r)
    | '-' :: r => (spanNumber 1 r.length r).map fun (n, r) => (-(n : Int), r)
    | r => (spanNumber 1 4 r).map fun (n, r) => ((n : Int), r)
  let rest ← match rest with
    | '-' :: r => some r
    | _ => none
  let (month, rest) ← spanNumber 1 2 (rest.dropWhile isSpace)
  let rest ← match rest with
    | '-' :: r => some r
    | _ => none
  let (day, rest) ← spanNumber 1 2 (rest.dropWhile isSpace)
  let d : Date := ⟨year, month, day⟩
  if rest.isEmpty && d.isValid && first.toDays ≤ d.toDays && d.toDays ≤ last.toDays then some d
  else none

end Date

end ListScheduling
