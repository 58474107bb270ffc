/-
ReversePolish/Proofs/HalfAway.lean

Rounding to whole numbers, a half going away from zero (`HalfAway`).

The definition of `Number.round` adds one half in exact arithmetic.  With the
arithmetic of numbers alone that would go wrong, just below one half as well as
beyond `2 ^ 52`, where the sum has to be rounded itself.  There is another way
that needs nothing else: subtract the whole part, compare what is left with one
half, and count one more if it is at least that (`Number.roundInSteps`).  No
step of it is rounded (`ExactSteps`).  What is left is a remainder by one, and
the whole number at the end is either at most `2 ^ 53` or the number itself.

So both ways give the same number, for every number there is
(`Number.round_halfAway`).
-/
import ReversePolish.Proofs.Exactness

namespace ReversePolish

/-! ### Whole numbers nearest to rational numbers -/

/-- The whole number nearest to a rational number; of two it is the one further
from zero. -/
structure HalfAway (x : ℚ) (n : ℤ) : Prop where
  near : |(n : ℚ) - x| ≤ 1 / 2
  away : |(n : ℚ) - x| = 1 / 2 → |x| < |(n : ℚ)|

theorem HalfAway.neg {x : ℚ} {n : ℤ} (h : HalfAway x n) : HalfAway (-x) (-n) := by
  have hdistance : |((-n : ℤ) : ℚ) - -x| = |(n : ℚ) - x| := by
    rw [Int.cast_neg, neg_sub_neg, abs_sub_comm]
  constructor
  · rw [hdistance]
    exact h.near
  · rw [hdistance, Int.cast_neg, abs_neg, abs_neg]
    exact h.away

theorem halfAway_floor {x : ℚ} (hx : 0 ≤ x) : HalfAway x (⌊x + 1 / 2⌋₊ : ℕ) := by
  have hlow : (⌊x + 1 / 2⌋₊ : ℚ) ≤ x + 1 / 2 := Nat.floor_le (by linarith)
  have hhigh : x + 1 / 2 < ⌊x + 1 / 2⌋₊ + 1 := Nat.lt_floor_add_one _
  constructor
  · rw [Int.cast_natCast, abs_le]
    constructor <;> linarith
  · intro htie
    rw [Int.cast_natCast] at htie ⊢
    rw [abs_of_nonneg hx, Nat.abs_cast]
    rcases (abs_eq (by norm_num)).mp htie with hmore | hless
    · linarith
    · -- downwards the distance is always less than one half
      linarith

theorem floor_natCast_add_half (n : ℕ) : ⌊(n : ℚ) + 1 / 2⌋₊ = n := by
  rw [add_comm, Nat.floor_add_natCast (by norm_num), Nat.floor_eq_zero.mpr (by norm_num), zero_add]

/-! ### Magnitudes -/

namespace Magnitude

variable {m : Magnitude}

/-- One half more, in exact arithmetic, and then the whole part. -/
theorem add_half_div (m : Magnitude) :
    (m.units + unitsPerOne / 2) / unitsPerOne = ⌊m.value + 1 / 2⌋₊ := by
  have heven : unitsPerOne / 2 * 2 = unitsPerOne := by decide
  have hhalf : ((unitsPerOne / 2 : ℕ) : ℚ) = unitsPerOne / 2 := by
    rw [eq_div_iff two_ne_zero]
    exact_mod_cast heven
  have hpos := unitsPerOne_pos
  rw [← Nat.floor_div_eq_div (K := ℚ), Nat.cast_add, hhalf, value]
  congr 1
  field_simp

/-- **The whole number nearest to a finite magnitude is a finite magnitude.** -/
theorem ofNat_floor_add_half (hfinite : m.isInfinite = false) :
    (ofNat ⌊m.value + 1 / 2⌋₊).isInfinite = false ∧
      (ofNat ⌊m.value + 1 / 2⌋₊).value = ⌊m.value + 1 / 2⌋₊ := by
  rcases lt_or_ge m.value (2 ^ 53) with hsmall | hlarge
  · have hle : ⌊m.value + 1 / 2⌋₊ ≤ 2 ^ 53 := by
      apply Nat.le_of_lt_succ
      rw [Nat.floor_lt (by linarith [m.value_nonneg])]
      push_cast
      linarith
    exact ⟨isFinite_ofNat (hle.trans_lt (by decide)), value_ofNat_of_le hle⟩
  · -- the magnitude is whole already
    obtain ⟨k, hk⟩ := exists_even_of_le hlarge
    have hvalue : m.value = (2 * k : ℕ) := by
      rw [hk]
      push_cast
      rfl
    rw [hvalue, floor_natCast_add_half, ofNat_eq hfinite hvalue]
    exact ⟨hfinite, hvalue⟩

end Magnitude

namespace Number

/-! ### Rounding in steps -/

def half : Number := signed false ⟨0x3fe0000000000000, by decide⟩

def abs : Number → Number
  | nan => nan
  | signed _ m => signed false m

/-- The whole part, without the sign. -/
def whole : Number → ℕ
  | nan => 0
  | signed _ m => m.whole

/-- What is left without the whole part, by a subtraction of numbers. -/
def fraction (a : Number) : Number := a.abs.sub (ofNat a.whole)

/-- The whole part, or one more if at least one half is left. -/
def wholeInSteps (a : Number) : ℕ := if a.fraction.less half then a.whole else a.whole + 1

/-- Rounding with the arithmetic of numbers only.  The result gets back the sign. -/
def roundInSteps (a : Number) : Number :=
  if a.isFinite then signed a.isNegative (.ofNat a.wholeInSteps) else a

/-- The steps for a number with the value `x`, without a rounding error: the whole
part is a number, the difference from it is exact, and the whole number at the
end is a number too. -/
structure ExactSteps (a : Number) (x : ℚ) : Prop where
  floor : a.whole = ⌊|x|⌋₊
  whole : (ofNat a.whole).rational? = some (a.whole : ℚ)
  fraction : a.fraction.rational? = some (|x| - a.whole)
  rounded : (ofNat a.wholeInSteps).rational? = some (a.wholeInSteps : ℚ)

theorem rational?_half : half.rational? = some (1 / 2) := by
  have hvalue : Magnitude.value ⟨0x3fe0000000000000, by decide⟩ = (1 : ℕ) / (2 : ℕ) :=
    Magnitude.value_eq_div two_ne_zero (by decide +kernel)
  rw [half, rational?_signed false (by decide), hvalue]
  norm_num

section Signed

variable {m : Magnitude} (s : Bool)

theorem rational?_whole (hfinite : m.isInfinite = false) :
    (ofNat m.whole).rational? = some (m.whole : ℚ) :=
  rational?_ofNat (Magnitude.isFinite_ofNat_whole hfinite) (Magnitude.value_ofNat_whole hfinite)

/-- The subtraction is exact. -/
theorem rational?_fraction (hfinite : m.isInfinite = false) :
    (signed s m).fraction.rational? = some (m.value - m.whole) := by
  obtain ⟨rest, hrest, hvalue⟩ := Magnitude.exists_value_sub_whole hfinite
  apply rational?_sub (rational?_signed false hfinite) (rational?_whole hfinite) hrest
  rw [if_neg Bool.false_ne_true, ← hvalue, abs_of_nonneg rest.value_nonneg]

/-- The comparison with one half decides as the exact sum does. -/
theorem wholeInSteps_signed (hfinite : m.isInfinite = false) :
    (signed s m).wholeInSteps = ⌊m.value + 1 / 2⌋₊ := by
  have hless := less_iff (rational?_fraction s hfinite) rational?_half
  have hpos := m.value_nonneg
  have hlow := m.whole_le_value
  have hhigh := m.value_lt_whole_add_one
  have hwhole : (signed s m).whole = m.whole := rfl
  rw [wholeInSteps, hwhole, eq_comm, Nat.floor_eq_iff (by linarith)]
  split_ifs with hsmall
  · rw [hless] at hsmall
    constructor <;> linarith
  · rw [hless, not_lt] at hsmall
    push_cast
    constructor <;> linarith

theorem round_signed (hfinite : m.isInfinite = false) :
    (signed s m).round = signed s (.ofNat ⌊m.value + 1 / 2⌋₊) := by
  rw [round, hfinite, Magnitude.add_half_div]
  rfl

theorem exactSteps_signed (hfinite : m.isInfinite = false) :
    ExactSteps (signed s m) (if s then -m.value else m.value) where
  floor := by
    rw [abs_rational]
    exact m.whole_eq_floor
  whole := rational?_whole hfinite
  fraction := by
    rw [abs_rational]
    exact rational?_fraction s hfinite
  rounded := by
    rw [wholeInSteps_signed s hfinite]
    obtain ⟨hbound, hvalue⟩ := Magnitude.ofNat_floor_add_half hfinite
    exact rational?_ofNat hbound hvalue

/-- The rounded number has the value that is nearest. -/
theorem exists_halfAway (hfinite : m.isInfinite = false) :
    ∃ n : ℤ, (signed s m).round.rational? = some (n : ℚ) ∧
      HalfAway (if s then -m.value else m.value) n := by
  obtain ⟨hbound, hvalue⟩ := Magnitude.ofNat_floor_add_half hfinite
  have hnear := halfAway_floor m.value_nonneg
  rw [round_signed s hfinite, rational?_signed s hbound, hvalue]
  cases s with
  | false => exact ⟨_, rfl, hnear⟩
  | true => exact ⟨_, by push_cast; rfl, hnear.neg⟩

end Signed

/-! ### Rounding -/

theorem round_of_not_finite {a : Number} (h : a.isFinite = false) : a.round = a := by
  cases a with
  | nan => rfl
  | signed s m =>
    have hinfinite : m.isInfinite = true := by simpa [isFinite] using h
    rw [round, if_pos hinfinite]

theorem exists_of_isFinite {a : Number} (h : a.isFinite = true) :
    ∃ s m, a = signed s m ∧ m.isInfinite = false := by
  cases a with
  | nan => cases h
  | signed s m => exact ⟨s, m, rfl, by simpa [isFinite] using h⟩

theorem isNegative_round (a : Number) : a.round.isNegative = a.isNegative := by
  cases a with
  | nan => rfl
  | signed s m =>
    rw [round]
    split <;> simp only [isNegative]

/-- What has been rounded is whole, and is rounded to itself. -/
theorem round_round (a : Number) : a.round.round = a.round := by
  cases hfinite : a.isFinite with
  | false => rw [round_of_not_finite hfinite, round_of_not_finite hfinite]
  | true =>
    obtain ⟨s, m, rfl, hm⟩ := exists_of_isFinite hfinite
    obtain ⟨hbound, hvalue⟩ := Magnitude.ofNat_floor_add_half hm
    rw [round_signed s hm, round_signed s hbound, hvalue, floor_natCast_add_half]

theorem roundInSteps_eq_round (a : Number) : a.roundInSteps = a.round := by
  cases hfinite : a.isFinite with
  | false =>
    rw [round_of_not_finite hfinite, roundInSteps, hfinite]
    rfl
  | true =>
    obtain ⟨s, m, rfl, hm⟩ := exists_of_isFinite hfinite
    rw [roundInSteps, if_pos hfinite, wholeInSteps_signed s hm, round_signed s hm]
    rfl

/-- **Rounding is exact, and a half goes away from zero.**  A finite number is
replaced by the nearest whole number, of two by the one further from zero, with
the same sign also if it is zero.  What is not finite stays as it is, and so
does what has been rounded.  The same comes of a subtraction, a comparison and a
conversion of numbers, none of which is rounded. -/
theorem round_halfAway (a : Number) :
    (a.isFinite = false → a.round = a) ∧
    a.round.isNegative = a.isNegative ∧
    a.round.round = a.round ∧
    a.roundInSteps = a.round ∧
    ∀ x, a.rational? = some x →
      (∃ n : ℤ, a.round.rational? = some (n : ℚ) ∧ HalfAway x n) ∧ ExactSteps a x := by
  refine ⟨round_of_not_finite, isNegative_round a, round_round a, roundInSteps_eq_round a,
    fun x hx => ?_⟩
  obtain ⟨s, m, rfl, hfinite, rfl⟩ := exists_of_rational? hx
  exact ⟨exists_halfAway s hfinite, exactSteps_signed s hfinite⟩

/-- The number just below one half, to which adding one half would give one; the
last half below zero before `2 ^ 52`; and an infinity. -/
theorem round_halfAway_limits :
    let below : Number := signed false ⟨0x3fdfffffffffffff, by decide⟩
    let last : Number := signed true ⟨0x432fffffffffffff, by decide⟩
    (below.rational? = some (1 / 2 - 1 / 2 ^ 54) ∧ below.add half = one ∧ below.round = zero ∧
      ∃ n : ℤ, below.round.rational? = some (n : ℚ) ∧ HalfAway (1 / 2 - 1 / 2 ^ 54) n) ∧
    (last.rational? = some (1 / 2 - 2 ^ 52) ∧ last.round = signed true (.ofNat (2 ^ 52)) ∧
      (∃ n : ℤ, last.round.rational? = some (n : ℚ) ∧ HalfAway (1 / 2 - 2 ^ 52) n) ∧
      ExactSteps last (1 / 2 - 2 ^ 52)) ∧
    infinity.isFinite = false ∧ infinity.round = infinity := by
  intro below last
  have hbelow : below.rational? = some (1 / 2 - 1 / 2 ^ 54) := by
    have hvalue : Magnitude.value ⟨0x3fdfffffffffffff, by decide⟩ =
        (2 ^ 53 - 1 : ℕ) / (2 ^ 54 : ℕ) :=
      Magnitude.value_eq_div (by decide) (by decide +kernel)
    rw [rational?_signed false (by decide), hvalue]
    norm_num
  have hlast : last.rational? = some (1 / 2 - 2 ^ 52) := by
    have hvalue : Magnitude.value ⟨0x432fffffffffffff, by decide⟩ =
        (2 ^ 53 - 1 : ℕ) / (2 : ℕ) :=
      Magnitude.value_eq_div (by decide) (by decide +kernel)
    rw [rational?_signed true (by decide), hvalue]
    norm_num
  obtain ⟨-, -, -, -, hround⟩ := round_halfAway below
  obtain ⟨-, -, -, -, hround'⟩ := round_halfAway last
  obtain ⟨hnear, hsteps⟩ := hround' _ hlast
  exact ⟨⟨hbelow, by decide +kernel, by decide +kernel, (hround _ hbelow).1⟩,
    ⟨hlast, by decide +kernel, hnear, hsteps⟩, rfl, (round_halfAway infinity).1 rfl⟩

end Number

end ReversePolish
