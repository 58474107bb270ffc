/-
ReversePolish/Number/Clamp.lean

From numbers to whole numbers.  Each conversion truncates toward zero and then
clamps to a range: counts and indexes to `[0, 2 ^ 63 - 1]`, character codes to
`[0, 2 ^ 32 - 1]`, exit statuses to `[-2 ^ 31, 2 ^ 31 - 1]`.  NaN counts as
zero and infinities go to the nearer bound, so none of them fails.
-/
import ReversePolish.Number.Basic

namespace ReversePolish.Number

/-- The largest index. -/
def maxIndex : Nat := 0x7fffffffffffffff

/-- A count or index: the truncation, within `[0, maxIndex]`. -/
def toIndex : Number → Nat
  | nan => 0
  | signed true _ => 0
  | signed false m => min m.whole maxIndex

/-- A character code: an index of at most 32 bits. -/
def toCodePoint (n : Number) : Nat := min n.toIndex 0xffffffff

/-- An exit status: the truncation, within the signed 32-bit range. -/
def toStatus : Number → Int
  | nan => 0
  | signed true m => max (-(m.whole : Int)) (-0x80000000)
  | signed false m => min (m.whole : Int) 0x7fffffff

end ReversePolish.Number
