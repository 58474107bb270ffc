/-
ReversePolish/Number/Decimal.lean

Decimals `digits * 10 ^ exponent`, and the two passages between decimals and
magnitudes:

* `Decimal.toMagnitude` reads: the magnitude nearest to the exact decimal;
* `Magnitude.shortest` writes: of the decimals that read back as the given
  magnitude, one with the fewest digits, and of those the nearest.

Design of `shortest`.  The values that round to a magnitude fill the interval
between its two midpoints, ends included iff the position is even.  On each
grid of multiples of `10 ^ p`, from coarse to fine, the only candidates are the
two grid points around the value; the first grid with a candidate in the
interval decides.  All of it is exact arithmetic in half units of
`2 ^ (-1075)`.
-/
import ReversePolish.Number.Basic

namespace ReversePolish

/-- The decimal `digits * 10 ^ exponent`. -/
structure Decimal where
  digits : Nat
  exponent : Int
  deriving DecidableEq

/-- A power of ten. -/
def tenTo (n : Nat) : Nat := Nat.pow 10 n

namespace Decimal

open Magnitude (unitsPerOne)

/-! ### Reading -/

/-- The magnitude nearest to a decimal.  A decimal of more than 400 places
before the point is beyond every finite magnitude, and one with more than 400
zeros after it is nearer to zero than to anything else; the powers of ten in
between are computed exactly. -/
def toMagnitude (d : Decimal) : Magnitude :=
  if d.digits = 0 then .zero
  else if 400 < d.exponent then .infinity
  else if d.exponent + (d.digits.log2 + 1) < -400 then .zero
  else match d.exponent with
    | .ofNat e => .nearest (d.digits * tenTo e * unitsPerOne) 1
    | .negSucc e => .nearest (d.digits * unitsPerOne) (tenTo (e + 1))

/-! ### Normal form -/

/-- The same decimal without trailing zeros in its digits; zero has exponent
zero. -/
def trim (d : Decimal) : Decimal :=
  if d.digits = 0 then ⟨0, 0⟩
  else if d.digits % 10 = 0 then trim ⟨d.digits / 10, d.exponent + 1⟩
  else d
termination_by d.digits
decreasing_by all_goals omega

/-! ### Positional notation -/

/-- The decimal written out with no exponent: a point only if there are digits
after it, and a digit before it always. -/
def positional (d : Decimal) : List Char :=
  let digits := Nat.toDigits 10 d.digits
  match d.exponent with
  | .ofNat e => digits ++ List.replicate e '0'
  | .negSucc e =>
    let padded := List.replicate (e + 2 - digits.length) '0' ++ digits
    let whole := padded.length - (e + 1)
    padded.take whole ++ '.' :: padded.drop whole

end Decimal

/-! ### Writing -/

namespace Magnitude

/-- The candidate for a position on the grid of multiples of `10 ^ p`: a grid
point next to the value that rounds to it, the nearer one if both do. -/
def onGrid (position : Nat) (p : Int) : Option Nat :=
  let scale := tenTo (-p).toNat
  let step := tenTo p.toNat * (2 * unitsPerOne)
  let value := 2 * unitsAt position * scale
  let low := (unitsAt (position - 1) + unitsAt position) * scale
  let high := (unitsAt position + unitsAt (position + 1)) * scale
  let reads (n : Nat) : Bool :=
    if position % 2 = 0 then low ≤ n * step && n * step ≤ high
    else low < n * step && n * step < high
  let below := value / step
  match reads below, reads (below + 1) with
  | true, true => some (roundHalfEven value step)
  | true, false => some below
  | false, true => some (below + 1)
  | false, false => none

/-- An exponent `p` such that the value at a position is below `10 ^ p`, and
at least `10 ^ (p - 3)`.  The decimal logarithm of two is 0.30103. -/
def leadingExponent (position : Nat) : Int :=
  (((unitsAt position).log2 : Int) - 1073) * 30103 / 100000 + 1

/-- The exact decimal of a position: one unit is `5 ^ 1074 * 10 ^ (-1074)`. -/
def exactDecimal (position : Nat) : Decimal :=
  ⟨unitsAt position * Nat.pow 5 1074, -1074⟩

/-- The shortest decimal that reads back as a magnitude, the nearest of those
of equal length.  Seventeen digits are always enough, so a grid among the
twenty from the leading exponent down has a candidate. -/
def shortest (m : Magnitude) : Decimal :=
  let start := leadingExponent m.position
  let found := (List.range 20).findSome? fun (i : Nat) =>
    (onGrid m.position (start - i)).map fun digits => Decimal.mk digits (start - i)
  (found.getD (exactDecimal m.position)).trim

end Magnitude

end ReversePolish
