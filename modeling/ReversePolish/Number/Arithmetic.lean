/-
ReversePolish/Number/Arithmetic.lean

Arithmetic on doubles.  Each operation forms its exact result as a ratio of
units and rounds once (`add`, `mul`, `div`), or is exact as it stands (`rem`,
`round`).  No operation fails: what has no value is NaN, and a quotient by
zero is an infinity.

Only `pow` is not exact-then-round: a power of doubles is in general
irrational, so it is left to the double-precision power function.
-/
import ReversePolish.Number.Basic

namespace ReversePolish.Number

open Magnitude (unitsPerOne)

/-! ### Sums -/

/-- The signed value of a finite number in units. -/
def signedUnits : Bool → Magnitude → Int
  | true, m => -(m.units : Int)
  | false, m => m.units

/-- The number nearest to a whole number of units.  An exact zero takes the
given sign. -/
def ofUnits (zeroSign : Bool) (n : Int) : Number :=
  if n = 0 then signed zeroSign .zero else signed (n < 0) (.nearest n.natAbs 1)

/-- The sum.  Opposite infinities have none; a zero sum is negative only if
both terms are. -/
def add : Number → Number → Number
  | signed s a, signed t b =>
    if a.isInfinite then
      if b.isInfinite && s != t then nan else signed s a
    else if b.isInfinite then signed t b
    else ofUnits (s && t) (signedUnits s a + signedUnits t b)
  | _, _ => nan

/-- The difference. -/
def sub (a b : Number) : Number := add a (neg b)

/-! ### Products and quotients -/

/-- The product.  Zero times infinity has none. -/
def mul : Number → Number → Number
  | signed s a, signed t b =>
    if a.isInfinite || b.isInfinite then
      if a.isZero || b.isZero then nan else signed (s != t) .infinity
    else signed (s != t) (.nearest (a.units * b.units) unitsPerOne)
  | _, _ => nan

/-- The quotient.  Zero by zero and infinity by infinity have none; any other
quotient by zero is infinite, with the product of the signs. -/
def div : Number → Number → Number
  | signed s a, signed t b =>
    if b.isZero then
      if a.isZero then nan else signed (s != t) .infinity
    else if a.isInfinite then
      if b.isInfinite then nan else signed (s != t) .infinity
    else if b.isInfinite then signed (s != t) .zero
    else signed (s != t) (.nearest (a.units * unitsPerOne) b.units)
  | _, _ => nan

/-- The remainder of the division that truncates toward zero.  It is exact,
and its sign is that of the dividend. -/
def rem : Number → Number → Number
  | signed s a, signed _ b =>
    if a.isInfinite || b.isZero then nan
    else if b.isInfinite then signed s a
    else signed s (.nearest (a.units % b.units) 1)
  | _, _ => nan

/-! ### Whole numbers -/

/-- The nearest whole number, a half going away from zero.  The sign is kept,
also of a zero result. -/
def round : Number → Number
  | nan => nan
  | signed s m =>
    if m.isInfinite then signed s m
    else signed s (.ofNat ((m.units + unitsPerOne / 2) / unitsPerOne))

/-- Finite, whole and odd. -/
def isOddWhole : Number → Bool
  | nan => false
  | signed _ m => !m.isInfinite && m.isWhole && m.whole % 2 == 1

/-! ### Powers -/

/-- The power of doubles.  An overflowing power and a negative power of zero
are infinite, negative exactly for a negative base and an odd whole exponent;
a negative base with a fractional exponent has none. -/
def pow (a b : Number) : Number :=
  ofBits (Float.pow (Float.ofBits a.toBits) (Float.ofBits b.toBits)).toBits

end ReversePolish.Number
