import ListScheduling.Double.Basic

/-!
The two orders on doubles that scheduling uses.
-/
namespace ListScheduling.Double

/-- Comparison in the IEEE total order. -/
def totalCmp (x y : Double) : Ordering := compare x.totalKey y.totalKey

/-- The larger of two doubles, ignoring a NaN operand. Equal operands give the second, so
`maxNum (-0) (+0) = +0` but `maxNum (+0) (-0) = -0`. Of two NaNs the first is kept. -/
def maxNum (x y : Double) : Double :=
  if y.isNaN then x
  else if x.isNaN then y
  else if y.lt x then x
  else y

/-- The smaller of two doubles, ignoring a NaN operand. Equal operands give the second, so
`minNum (+0) (-0) = -0` but `minNum (-0) (+0) = +0`. Of two NaNs the first is kept. -/
def minNum (x y : Double) : Double :=
  if y.isNaN then x
  else if x.isNaN then y
  else if x.lt y then x
  else y

end ListScheduling.Double
