/-
ReversePolish/Number/Basic.lean

The numbers of the language: the IEEE double-precision values, as exact data.

Design.  A number is `nan`, or a sign together with a magnitude.  A magnitude
is its *position* in the increasing list of all non-negative doubles: position
`0` is zero, position `1` is the smallest subnormal, and the last position is
infinity.  Order of positions is therefore order of values, equality of data
is equality of bit patterns, and all NaNs are one value.

Every finite magnitude is a whole number of units of `2 ^ (-1074)`
(`Magnitude.units`).  Exact results are ratios of such units, and
`Magnitude.nearest` is the one place where anything is rounded: to the nearest
position, a tie going to the even one.
-/

namespace ReversePolish

/-! ### Magnitudes -/

/-- A non-negative double, infinity included, as its position in increasing
order, which is also its bit pattern without the sign. -/
structure Magnitude where
  position : Nat
  position_le : position ≤ 0x7ff0000000000000 := by decide
  deriving DecidableEq

namespace Magnitude

/-- The number of positions in a binade, `2 ^ 52`.  There are 2047 binades
below infinity. -/
def binade : Nat := 0x10000000000000

/-- The value at a position, in units of `2 ^ (-1074)`.  In the lowest two
binades the positions are one unit apart; each further binade doubles the
spacing. -/
def unitsAt (position : Nat) : Nat :=
  if position < binade then position
  else (binade + position % binade) <<< (position / binade - 1)

/-- The value of a magnitude in units of `2 ^ (-1074)`.  Infinity gets the
value `2 ^ 1024`, where the next binade would start. -/
def units (m : Magnitude) : Nat := unitsAt m.position

/-- The number of units in one. -/
def unitsPerOne : Nat := 1 <<< 1074

def zero : Magnitude := ⟨0, by decide⟩

def infinity : Magnitude := ⟨0x7ff0000000000000, by decide⟩

def isZero (m : Magnitude) : Bool := m.position == 0

def isInfinite (m : Magnitude) : Bool := m.position == infinity.position

/-- `num / den` rounded to a whole number, a half going to the even
neighbour. -/
def roundHalfEven (num den : Nat) : Nat :=
  let quotient := num / den
  let twiceRest := 2 * (num % den)
  if twiceRest < den then quotient
  else if den < twiceRest then quotient + 1
  else quotient + quotient % 2

/-- The position nearest to `num / den` units if there were no largest
double.  A quotient below `2 ^ 53` is a position itself; above, `shift` more
binades have been passed and positions are `2 ^ shift` units apart. -/
def nearestPosition (num den : Nat) : Nat :=
  let shift := (num / den).log2 - 52
  shift * binade + roundHalfEven num (den <<< shift)

/-- The magnitude nearest to `num / den` units, ties to the even position;
what lies beyond the largest finite magnitude by half a step or more is
infinity. -/
def nearest (num den : Nat) : Magnitude :=
  ⟨min (nearestPosition num den) 0x7ff0000000000000, Nat.min_le_right ..⟩

/-- The magnitude nearest to a natural number. -/
def ofNat (n : Nat) : Magnitude := nearest (n * unitsPerOne) 1

/-- The whole part of a magnitude. -/
def whole (m : Magnitude) : Nat := m.units / unitsPerOne

/-- A magnitude with no fractional part. -/
def isWhole (m : Magnitude) : Bool := m.units % unitsPerOne == 0

end Magnitude

/-! ### Numbers -/

/-- A double.  All NaNs are one number; the two zeros are different data. -/
inductive Number where
  | nan
  | signed (negative : Bool) (magnitude : Magnitude)
  deriving DecidableEq

namespace Number

instance : Inhabited Number := ⟨.signed false .zero⟩

def zero : Number := signed false .zero

def infinity : Number := signed false .infinity

/-- The number nearest to a natural number. -/
def ofNat (n : Nat) : Number := signed false (.ofNat n)

def one : Number := ofNat 1

/-- The number nearest to an integer, or `none` if that is beyond the finite
range. -/
def ofInt? (n : Int) : Option Number :=
  let m := Magnitude.ofNat n.natAbs
  if m.isInfinite then none else some (signed (n < 0) m)

def isNaN : Number → Bool
  | nan => true
  | signed .. => false

def isFinite : Number → Bool
  | nan => false
  | signed _ m => !m.isInfinite

/-- Either of the two zeros. -/
def isZero : Number → Bool
  | nan => false
  | signed _ m => m.isZero

/-- The sign bit; that of NaN is clear. -/
def isNegative : Number → Bool
  | nan => false
  | signed s _ => s

def neg : Number → Number
  | nan => nan
  | signed s m => signed (!s) m

/-! ### Order -/

/-- The place of a number on the signed line of positions, both zeros at
`0`. -/
def place : Bool → Magnitude → Int
  | true, m => -(m.position : Int)
  | false, m => m.position

/-- Strictly less; NaN is comparable with nothing. -/
def less : Number → Number → Bool
  | signed s a, signed t b => place s a < place t b
  | _, _ => false

/-! ### Bit patterns -/

/-- The value of the sign bit. -/
def signBit : Nat := 0x8000000000000000

/-- The number with a given 64-bit pattern. -/
def ofBits (bits : UInt64) : Number :=
  let position := bits.toNat % signBit
  if h : position ≤ 0x7ff0000000000000 then signed (signBit ≤ bits.toNat) ⟨position, h⟩
  else nan

/-- The 64-bit pattern of a number; NaN has the quiet one. -/
def toBits : Number → UInt64
  | nan => 0x7ff8000000000000
  | signed s m => .ofNat ((if s then signBit else 0) + m.position)

end Number

end ReversePolish
