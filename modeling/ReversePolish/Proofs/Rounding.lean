/-
ReversePolish/Proofs/Rounding.lean

Rounding to the nearest magnitude.  What is meant by it is said on rational
numbers and without positions (`Magnitude.Rounds`): no finite magnitude is
nearer, of two that are equally near the even one is taken, and from half a
step beyond the largest finite magnitude on the result is infinity.

The proof goes through the midpoints between neighbours.  A value belongs to a
position exactly if it lies between the midpoints on both sides, an end
included if the position is even.  So the number of midpoints that a value has
passed is its position (`Magnitude.lt_nearestPosition_iff`), however the ratio
is written.

Values in this module are in units, except in `Rounds`, where they are plain
numbers.
-/
import Mathlib.Algebra.Order.Field.Power
import Mathlib.Algebra.Order.Field.Rat
import Mathlib.Data.Nat.Cast.Order.Field
import Mathlib.Order.Monotone.Basic
import Mathlib.Tactic.FieldSimp
import Mathlib.Tactic.Linarith
import Mathlib.Tactic.NormNum
import Mathlib.Tactic.Positivity
import Mathlib.Tactic.Ring
import ReversePolish.Number.Basic

namespace ReversePolish.Magnitude

/-! ### The values of positions -/

/-- Position `s * binade + r` lies `s` binades up, where one step is `2 ^ s`
units. -/
theorem unitsAt_grid {s r : ℕ} (hlow : s = 0 ∨ binade ≤ r) (hhigh : r ≤ 2 * binade) :
    unitsAt (s * binade + r) = r * 2 ^ s := by
  have hpos : 0 < binade := by decide
  by_cases hsub : r < binade
  · obtain rfl : s = 0 := by omega
    simp [unitsAt, hsub]
  · obtain ⟨t, rfl⟩ := Nat.exists_eq_add_of_le (Nat.le_of_not_lt hsub)
    have hposition : s * binade + (binade + t) = t + binade * (s + 1) := by ring
    have hbeyond : ¬t + binade * (s + 1) < binade := by
      rw [Nat.mul_succ]
      omega
    rw [hposition, unitsAt, if_neg hbeyond, Nat.add_mul_mod_self_left,
      Nat.add_mul_div_left _ _ hpos, Nat.shiftLeft_eq]
    rcases Nat.lt_or_ge t binade with ht | ht
    · rw [Nat.mod_eq_of_lt ht, Nat.div_eq_of_lt ht]
      congr 2
      omega
    · -- the end of a binade is the start of the next one
      obtain rfl : t = binade := by omega
      have hexponent : binade / binade + (s + 1) - 1 = s + 1 := by
        rw [Nat.div_self hpos]
        omega
      rw [Nat.mod_self, hexponent]
      ring

/-- Every position lies in some binade, or in the lowest two. -/
theorem exists_grid (p : ℕ) :
    ∃ s r, p = s * binade + r ∧ (s = 0 ∨ binade ≤ r) ∧ r < 2 * binade := by
  simp only [binade]
  by_cases hlow : p < 0x20000000000000
  · exact ⟨0, p, by omega, Or.inl rfl, by omega⟩
  · refine ⟨p / 0x10000000000000 - 1, 0x10000000000000 + p % 0x10000000000000, ?_, ?_, ?_⟩
    · omega
    · omega
    · omega

theorem unitsAt_strictMono : StrictMono unitsAt := by
  refine strictMono_nat_of_lt_succ fun p => ?_
  obtain ⟨s, r, rfl, hlow, hhigh⟩ := exists_grid p
  have hnext : s = 0 ∨ binade ≤ r + 1 := hlow.imp id (le_trans · (Nat.le_succ r))
  rw [add_assoc, unitsAt_grid hlow hhigh.le, unitsAt_grid hnext hhigh]
  exact Nat.mul_lt_mul_of_pos_right (Nat.lt_succ_self r) (by positivity)

/-! ### Midpoints -/

/-- The midpoint between a position and the next one. -/
def midpoint (p : ℕ) : ℚ := (unitsAt p + unitsAt (p + 1)) / 2

theorem midpoint_strictMono : StrictMono midpoint := by
  refine strictMono_nat_of_lt_succ fun p => ?_
  have h₁ : (unitsAt p : ℚ) < unitsAt (p + 1) := by
    exact_mod_cast unitsAt_strictMono (Nat.lt_succ_self p)
  have h₂ : (unitsAt (p + 1) : ℚ) < unitsAt (p + 1 + 1) := by
    exact_mod_cast unitsAt_strictMono (Nat.lt_succ_self (p + 1))
  unfold midpoint
  linarith

/-- A value has passed the midpoint after a position.  The midpoint itself
belongs to the even neighbour, so after an odd position it counts as
passed. -/
def Past (p : ℕ) (x : ℚ) : Prop := midpoint p < x ∨ midpoint p = x ∧ p % 2 = 1

variable {p q num den : ℕ} {x : ℚ}

theorem Past.le (h : Past p x) : midpoint p ≤ x := h.elim le_of_lt fun h => h.1.le

theorem le_of_not_past (h : ¬Past p x) : x ≤ midpoint p := by
  rw [Past, not_or] at h
  exact not_lt.mp h.1

theorem past_iff_of_even (h : p % 2 = 0) : Past p x ↔ midpoint p < x := by
  rw [Past, h]
  simp

theorem past_iff_of_odd (h : p % 2 = 1) : Past p x ↔ midpoint p ≤ x := by
  rw [Past, le_iff_lt_or_eq]
  simp [h]

theorem Past.mono (h : Past p x) (hle : q ≤ p) : Past q x := by
  rcases hle.eq_or_lt with rfl | hlt
  · exact h
  · exact Or.inl ((midpoint_strictMono hlt).trans_le h.le)

/-- A value between the midpoints on both sides of a position. -/
structure Between (p : ℕ) (x : ℚ) : Prop where
  before : ∀ q < p, Past q x
  after : ¬Past p x

theorem between_zero_iff : Between 0 x ↔ x ≤ midpoint 0 := by
  rw [← not_lt, ← past_iff_of_even (Nat.zero_mod 2)]
  exact ⟨Between.after, fun h => ⟨nofun, h⟩⟩

theorem between_succ_iff : Between (p + 1) x ↔ Past p x ∧ ¬Past (p + 1) x := by
  constructor
  · intro h
    exact ⟨h.before p (Nat.lt_succ_self p), h.after⟩
  · rintro ⟨hpast, hafter⟩
    exact ⟨fun q hq => hpast.mono (Nat.le_of_lt_succ hq), hafter⟩

/-- The value of a position is one of them. -/
theorem between_unitsAt (p : ℕ) : Between p (unitsAt p) where
  before := by
    intro q hq
    left
    have h₁ : (unitsAt q : ℚ) < unitsAt (q + 1) := by
      exact_mod_cast unitsAt_strictMono (Nat.lt_succ_self q)
    have h₂ : (unitsAt (q + 1) : ℚ) ≤ unitsAt p := by
      exact_mod_cast unitsAt_strictMono.monotone (Nat.succ_le_of_lt hq)
    rw [midpoint]
    linarith
  after := by
    intro hpast
    have hnext : (unitsAt p : ℚ) < unitsAt (p + 1) := by
      exact_mod_cast unitsAt_strictMono (Nat.lt_succ_self p)
    have hle := hpast.le
    rw [midpoint] at hle
    linarith

/-! ### Rounding to a whole number -/

theorem roundHalfEven_range (num den : ℕ) :
    num / den ≤ roundHalfEven num den ∧ roundHalfEven num den ≤ num / den + 1 := by
  unfold roundHalfEven
  dsimp only
  split_ifs <;> omega

/-- The rounded quotient is at most one half away, and is even if it is exactly
that. -/
theorem roundHalfEven_near (num : ℕ) (hden : 0 < den) :
    ((roundHalfEven num den : ℚ) - 1 / 2 < num / den ∨
      (roundHalfEven num den : ℚ) - 1 / 2 = num / den ∧ roundHalfEven num den % 2 = 0) ∧
    ((num : ℚ) / den < roundHalfEven num den + 1 / 2 ∨
      (num : ℚ) / den = roundHalfEven num den + 1 / 2 ∧ roundHalfEven num den % 2 = 0) := by
  have hden' : (0 : ℚ) < den := by exact_mod_cast hden
  have hsplit : (num : ℚ) = den * (num / den : ℕ) + (num % den : ℕ) := by
    exact_mod_cast (Nat.div_add_mod num den).symm
  have hvalue : (num : ℚ) / den = (num / den : ℕ) + ((num % den : ℕ) : ℚ) / den := by
    rw [hsplit]
    field_simp
  -- the part after the point decides
  have hless : 2 * (num % den) < den → ((num % den : ℕ) : ℚ) / den < 1 / 2 := by
    intro h
    have h' : 2 * ((num % den : ℕ) : ℚ) < den := by exact_mod_cast h
    rw [div_lt_iff₀ hden']
    linarith
  have hmore : den < 2 * (num % den) → 1 / 2 < ((num % den : ℕ) : ℚ) / den := by
    intro h
    have h' : (den : ℚ) < 2 * ((num % den : ℕ) : ℚ) := by exact_mod_cast h
    rw [lt_div_iff₀ hden']
    linarith
  have hhalf : 2 * (num % den) = den → ((num % den : ℕ) : ℚ) / den = 1 / 2 := by
    intro h
    have h' : 2 * ((num % den : ℕ) : ℚ) = den := by exact_mod_cast h
    rw [div_eq_iff hden'.ne']
    linarith
  have hnonneg : (0 : ℚ) ≤ ((num % den : ℕ) : ℚ) / den := by positivity
  have hone : ((num % den : ℕ) : ℚ) / den < 1 := by
    rw [div_lt_one hden']
    exact_mod_cast Nat.mod_lt num hden
  rw [hvalue]
  unfold roundHalfEven
  dsimp only
  split_ifs with hbelow habove
  · have := hless hbelow
    exact ⟨Or.inl (by linarith), Or.inl (by linarith)⟩
  · have := hmore habove
    push_cast
    exact ⟨Or.inl (by linarith), Or.inl (by linarith)⟩
  · have htie := hhalf (by omega)
    rcases Nat.mod_two_eq_zero_or_one (num / den) with heven | hodd
    · rw [heven, add_zero]
      exact ⟨Or.inl (by linarith), Or.inr ⟨by linarith, heven⟩⟩
    · rw [hodd]
      push_cast
      exact ⟨Or.inr ⟨by linarith, by omega⟩, Or.inl (by linarith)⟩

/-! ### The nearest position -/

/-- The step of the grid fits the quotient: there are at most `2 * binade`
steps in it, and at least `binade` unless the step is one unit. -/
theorem shift_range (quotient : ℕ) :
    quotient / 2 ^ (quotient.log2 - 52) < 2 * binade ∧
      (quotient.log2 - 52 = 0 ∨ binade ≤ quotient / 2 ^ (quotient.log2 - 52)) := by
  have hbinade : binade = 2 ^ 52 := by decide
  have hpos : 0 < 2 ^ (quotient.log2 - 52) := by positivity
  have hupper : quotient < 2 ^ (quotient.log2 + 1) := Nat.lt_log2_self
  refine ⟨?_, ?_⟩
  · rw [Nat.div_lt_iff_lt_mul hpos, hbinade, ← pow_succ', ← pow_add]
    exact hupper.trans_le (Nat.pow_le_pow_right (by decide) (by omega))
  · rcases Nat.eq_zero_or_pos (quotient.log2 - 52) with hzero | hshift
    · exact Or.inl hzero
    · right
      have hne : quotient ≠ 0 := by
        rintro rfl
        simp at hshift
      rw [Nat.le_div_iff_mul_le hpos, hbinade, ← pow_add]
      exact (Nat.pow_le_pow_right (by decide) (by omega)).trans (Nat.log2_self_le hne)

section Grid

variable {s r : ℕ} {y : ℚ}

theorem grid_mod_two (s r : ℕ) : (s * binade + r) % 2 = r % 2 := by
  simp only [binade]
  omega

/-- The next position is at least one step away: more at the end of a
binade. -/
theorem le_unitsAt_succ (hlow : s = 0 ∨ binade ≤ r) (hhigh : r ≤ 2 * binade) :
    (r + 1) * 2 ^ s ≤ unitsAt (s * binade + r + 1) := by
  rcases hhigh.lt_or_eq with hlt | rfl
  · have hnext : s = 0 ∨ binade ≤ r + 1 := hlow.imp id (le_trans · (Nat.le_succ r))
    rw [add_assoc, unitsAt_grid hnext hlt]
  · have hnext : s * binade + 2 * binade + 1 = (s + 1) * binade + (binade + 1) := by ring
    have hvalue : (binade + 1) * 2 ^ (s + 1) = (2 * binade + 1) * 2 ^ s + 2 ^ s := by ring
    rw [hnext, unitsAt_grid (Or.inr (Nat.le_succ binade)) (by decide), hvalue]
    exact Nat.le_add_right _ _

/-- A value of at most half a step more than `r` steps has not passed position
`r` of the grid. -/
theorem not_past_grid (hlow : s = 0 ∨ binade ≤ r) (hhigh : r ≤ 2 * binade)
    (hy : y < r + 1 / 2 ∨ y = r + 1 / 2 ∧ r % 2 = 0) : ¬Past (s * binade + r) (y * 2 ^ s) := by
  have hstep : (0 : ℚ) < 2 ^ s := by positivity
  have hnext : ((r : ℚ) + 1) * 2 ^ s ≤ unitsAt (s * binade + r + 1) := by
    exact_mod_cast le_unitsAt_succ hlow hhigh
  have hmidpoint : (r + 1 / 2) * 2 ^ s ≤ midpoint (s * binade + r) := by
    rw [midpoint, unitsAt_grid hlow hhigh]
    push_cast
    linarith
  rintro (hpast | ⟨hpast, hodd⟩)
  · have hless : y ≤ r + 1 / 2 := hy.elim le_of_lt fun h => h.1.le
    have := mul_le_mul_of_nonneg_right hless hstep.le
    linarith
  · rcases hy with hless | ⟨-, heven⟩
    · have := mul_lt_mul_of_pos_right hless hstep
      linarith
    · rw [grid_mod_two] at hodd
      omega

/-- A value of at most half a step less than `r` steps has passed all positions
before.  Where the step changes, the one below is smaller, and the value must
not be less than `r` steps. -/
theorem past_grid (hlow : s = 0 ∨ binade ≤ r) (hhigh : r ≤ 2 * binade)
    (hy : r - 1 / 2 < y ∨ r - 1 / 2 = y ∧ r % 2 = 0) (hstart : (s = 0 ∨ binade < r) ∨ r ≤ y)
    (hp : p < s * binade + r) : Past p (y * 2 ^ s) := by
  have hstep : (0 : ℚ) < 2 ^ s := by positivity
  obtain ⟨last, hlast⟩ := Nat.exists_eq_succ_of_ne_zero (Nat.ne_zero_of_lt hp)
  suffices hpast : Past last (y * 2 ^ s) from hpast.mono (by omega)
  have hvalue : (unitsAt (last + 1) : ℚ) = r * 2 ^ s := by
    rw [← Nat.succ_eq_add_one, ← hlast, unitsAt_grid hlow hhigh]
    push_cast
    rfl
  rcases hstart with hsame | hfull
  · -- the step below is the same
    obtain ⟨t, rfl⟩ : ∃ t, r = t + 1 := by
      refine Nat.exists_eq_add_of_le' ?_
      rcases hsame with rfl | hbinade
      · omega
      · exact Nat.lt_of_le_of_lt (Nat.zero_le _) hbinade
    obtain rfl : last = s * binade + t := by omega
    have hbefore : (unitsAt (s * binade + t) : ℚ) = t * 2 ^ s := by
      rw [unitsAt_grid (hsame.imp id Nat.le_of_lt_succ) (by omega)]
      push_cast
      rfl
    have hmidpoint : midpoint (s * binade + t) = ((t + 1 : ℕ) - 1 / 2) * 2 ^ s := by
      rw [midpoint, hbefore, hvalue]
      push_cast
      ring
    rw [Past, hmidpoint, grid_mod_two]
    rcases hy with hless | ⟨heq, heven⟩
    · exact Or.inl (mul_lt_mul_of_pos_right hless hstep)
    · exact Or.inr ⟨by rw [heq], by omega⟩
  · left
    have hbefore : (unitsAt last : ℚ) < unitsAt (last + 1) := by
      exact_mod_cast unitsAt_strictMono (Nat.lt_succ_self last)
    have := mul_le_mul_of_nonneg_right hfull hstep.le
    rw [midpoint]
    linarith

end Grid

/-- **Rounding counts midpoints.**  The nearest position is the number of
midpoints that the quotient has passed. -/
theorem lt_nearestPosition_iff (num : ℕ) (hden : 0 < den) :
    p < nearestPosition num den ↔ Past p (num / den) := by
  obtain ⟨hhigh, hlow⟩ := shift_range (num / den)
  unfold nearestPosition
  dsimp only
  generalize (num / den).log2 - 52 = s at hhigh hlow
  rw [Nat.shiftLeft_eq]
  rw [Nat.div_div_eq_div_mul] at hhigh hlow
  have hstep : 0 < den * 2 ^ s := by positivity
  obtain ⟨hfloor, hceil⟩ := roundHalfEven_range num (den * 2 ^ s)
  obtain ⟨hbelow, habove⟩ := roundHalfEven_near num hstep
  have hquotient : ((num / (den * 2 ^ s) : ℕ) : ℚ) ≤ num / (den * 2 ^ s : ℕ) :=
    Nat.cast_div_le
  generalize roundHalfEven num (den * 2 ^ s) = r at hfloor hceil hbelow habove
  have hx : (num : ℚ) / den = num / (den * 2 ^ s : ℕ) * 2 ^ s := by
    push_cast
    field_simp
  have hlow' : s = 0 ∨ binade ≤ r := hlow.imp id (le_trans · hfloor)
  rw [hx]
  constructor
  · refine past_grid hlow' (by omega) hbelow ?_
    rcases hlow with hzero | hbinade
    · exact Or.inl (Or.inl hzero)
    · rcases (hbinade.trans hfloor).lt_or_eq with hlt | rfl
      · exact Or.inl (Or.inr hlt)
      · -- not rounded up, so the quotient is not less
        have hexact : (binade : ℚ) ≤ (num / (den * 2 ^ s) : ℕ) := by exact_mod_cast hbinade
        exact Or.inr (hexact.trans hquotient)
  · intro hpast
    by_contra hp
    exact not_past_grid hlow' (by omega) habove (hpast.mono (Nat.le_of_not_lt hp))

/-! ### Nearest magnitudes -/

/-- The value of a magnitude.  Infinity gets the value `2 ^ 1024`. -/
def value (m : Magnitude) : ℚ := m.units / unitsPerOne

/-- Half a step beyond the largest finite magnitude. -/
def overflowBound : ℚ := 2 ^ 1024 - 2 ^ 970

/-- A number that is not negative is rounded to a magnitude: to the nearest
finite one, of two to the even one, and to infinity if it is too large. -/
structure Rounds (x : ℚ) (m : Magnitude) : Prop where
  overflow : m.isInfinite = true ↔ overflowBound ≤ x
  nearest : m.isInfinite = false → ∀ other : Magnitude, other.isInfinite = false →
    |x - m.value| ≤ |x - other.value|
  even : m.isInfinite = false → ∀ other : Magnitude, other.isInfinite = false → other ≠ m →
    |x - m.value| = |x - other.value| → m.position % 2 = 0

section Rounds

variable {m m' : Magnitude}

theorem eq_of_position (h : m.position = m'.position) : m = m' := by
  cases m
  cases m'
  cases h
  rfl

theorem isInfinite_eq_false_iff : m.isInfinite = false ↔ m.position < 0x7ff0000000000000 := by
  have hle := m.position_le
  have htop : infinity.position = 0x7ff0000000000000 := rfl
  rw [isInfinite, beq_eq_false_iff_ne, htop]
  omega

theorem unitsPerOne_pos : (0 : ℚ) < unitsPerOne := by
  have hpos : 0 < unitsPerOne := by decide
  exact_mod_cast hpos

theorem cast_unitsPerOne : (unitsPerOne : ℚ) = 2 ^ 1074 := by
  simp only [unitsPerOne, Nat.shiftLeft_eq, one_mul, Nat.cast_pow, Nat.cast_ofNat]

/-- Infinity is reached where the last midpoint is. -/
theorem midpoint_last : midpoint 0x7fefffffffffffff = overflowBound * unitsPerOne := by
  have hlast : unitsAt 0x7fefffffffffffff = 0x1fffffffffffff * 2 ^ 2045 :=
    unitsAt_grid (s := 2045) (r := 0x1fffffffffffff) (Or.inr (by decide)) (by decide)
  have htop : unitsAt 0x7ff0000000000000 = 0x10000000000000 * 2 ^ 2046 :=
    unitsAt_grid (s := 2046) (r := 0x10000000000000) (Or.inr (by decide)) (by decide)
  have h₁ : (2 : ℚ) ^ 1024 = 2 ^ 54 * 2 ^ 970 := by rw [← pow_add]
  have h₂ : (2 : ℚ) ^ 2045 = 2 * (2 ^ 970 * 2 ^ 1074) := by rw [← pow_add, ← pow_succ']
  have h₃ : (2 : ℚ) ^ 2046 = 2 ^ 2 * (2 ^ 970 * 2 ^ 1074) := by rw [← pow_add, ← pow_add]
  rw [midpoint, htop, hlast, overflowBound, cast_unitsPerOne]
  simp only [Nat.cast_mul, Nat.cast_pow, Nat.cast_ofNat]
  rw [h₁, h₂, h₃]
  -- the large powers need not be computed
  generalize (2 : ℚ) ^ 970 = a, (2 : ℚ) ^ 1074 = b
  ring

theorem past_last_iff : Past 0x7fefffffffffffff (x * unitsPerOne) ↔ overflowBound ≤ x := by
  have hscale : overflowBound * unitsPerOne ≤ x * unitsPerOne ↔ overflowBound ≤ x :=
    mul_le_mul_iff_left₀ unitsPerOne_pos
  rw [Past, midpoint_last, ← hscale, le_iff_lt_or_eq]
  simp

/-- Which of two numbers is nearer depends on their midpoint. -/
theorem abs_sub_le_iff_midpoint {a b x : ℚ} (h : a < b) :
    (|x - a| ≤ |x - b| ↔ x ≤ (a + b) / 2) ∧ (|x - b| ≤ |x - a| ↔ (a + b) / 2 ≤ x) := by
  have hfactor : (x - b) ^ 2 - (x - a) ^ 2 = (b - a) * 2 * ((a + b) / 2 - x) := by ring
  have hpos : 0 < (b - a) * 2 := by linarith
  refine ⟨?_, ?_⟩
  · rw [← sq_le_sq, ← sub_nonneg, hfactor, mul_nonneg_iff_of_pos_left hpos, sub_nonneg]
  · rw [← sq_le_sq, ← sub_nonpos, hfactor, ← neg_nonneg, ← mul_neg,
      mul_nonneg_iff_of_pos_left hpos, neg_nonneg, sub_nonpos]

/-- A value between the midpoints around a position is nearest to it, and
equally near to another one only if the position is even. -/
theorem Between.near (h : Between p x) (hne : q ≠ p) :
    |x - unitsAt p| ≤ |x - unitsAt q| ∧ (|x - unitsAt p| = |x - unitsAt q| → p % 2 = 0) := by
  rcases Nat.lt_or_gt_of_ne hne with hlt | hgt
  · obtain ⟨last, rfl⟩ := Nat.exists_eq_succ_of_ne_zero (Nat.ne_zero_of_lt hlt)
    have hpast : Past last x := h.before last (Nat.lt_succ_self last)
    have hvalue : (unitsAt q : ℚ) < unitsAt (last + 1) := by
      exact_mod_cast unitsAt_strictMono hlt
    have hmidpoint : ((unitsAt q : ℚ) + unitsAt (last + 1)) / 2 ≤ midpoint last := by
      have hq : (unitsAt q : ℚ) ≤ unitsAt last := by
        exact_mod_cast unitsAt_strictMono.monotone (Nat.le_of_lt_succ hlt)
      rw [midpoint]
      linarith
    obtain ⟨hnear, hfar⟩ := abs_sub_le_iff_midpoint (x := x) hvalue
    refine ⟨hfar.mpr (hmidpoint.trans hpast.le), fun heq => ?_⟩
    -- equally near, so the value is the midpoint that it has passed
    have hx : x ≤ midpoint last := (hnear.mp heq.ge).trans hmidpoint
    rcases hpast with hless | ⟨-, hodd⟩
    · exact absurd hless (not_lt.mpr hx)
    · omega
  · have hvalue : (unitsAt p : ℚ) < unitsAt q := by exact_mod_cast unitsAt_strictMono hgt
    have hmidpoint : midpoint p ≤ ((unitsAt p : ℚ) + unitsAt q) / 2 := by
      have hq : (unitsAt (p + 1) : ℚ) ≤ unitsAt q := by
        exact_mod_cast unitsAt_strictMono.monotone (Nat.succ_le_of_lt hgt)
      rw [midpoint]
      linarith
    obtain ⟨hnear, hfar⟩ := abs_sub_le_iff_midpoint (x := x) hvalue
    refine ⟨hnear.mpr ((le_of_not_past h.after).trans hmidpoint), fun heq => ?_⟩
    have hx : midpoint p = x :=
      le_antisymm (hmidpoint.trans (hfar.mp heq.ge)) (le_of_not_past h.after)
    rcases Nat.mod_two_eq_zero_or_one p with heven | hodd
    · exact heven
    · exact absurd (Or.inr ⟨hx, hodd⟩) h.after

theorem abs_sub_value (x : ℚ) (m : Magnitude) :
    |x - m.value| = |x * unitsPerOne - m.units| / unitsPerOne := by
  have hpos := unitsPerOne_pos
  have hscale : x - m.value = (x * unitsPerOne - m.units) / unitsPerOne := by
    rw [value]
    field_simp
  rw [hscale, abs_div, abs_of_pos hpos]

/-- The magnitude of a value between the midpoints around its position. -/
theorem Between.rounds (h : Between m.position (x * unitsPerOne)) (hfinite : m.isInfinite = false) :
    Rounds x m where
  overflow := by
    rw [hfinite]
    refine ⟨nofun, fun hlarge => absurd ?_ h.after⟩
    have hposition := isInfinite_eq_false_iff.mp hfinite
    exact (past_last_iff.mpr hlarge).mono (by omega)
  nearest := by
    intro _ other _
    rw [abs_sub_value, abs_sub_value, div_le_div_iff_of_pos_right unitsPerOne_pos]
    by_cases hsame : other.position = m.position
    · rw [units, units, hsame]
    · exact (h.near hsame).1
  even := by
    intro _ other _ hne heq
    rw [abs_sub_value, abs_sub_value, div_left_inj' unitsPerOne_pos.ne'] at heq
    have hother : other.position ≠ m.position := fun hsame => hne (eq_of_position hsame)
    exact (h.near hother).2 heq

theorem rounds_infinity (h : overflowBound ≤ x) : Rounds x infinity where
  overflow := ⟨fun _ => h, fun _ => rfl⟩
  nearest := nofun
  even := nofun

/-- **`nearest` rounds.** -/
theorem rounds_nearest (num : ℕ) (hden : 0 < den) :
    Rounds (num / den / unitsPerOne) (nearest num den) := by
  have hpos := unitsPerOne_pos
  have hscale : (num : ℚ) / den / unitsPerOne * unitsPerOne = num / den := by field_simp
  rcases Nat.lt_or_ge (nearestPosition num den) 0x7ff0000000000000 with hlt | hge
  · have hposition : (nearest num den).position = nearestPosition num den := Nat.min_eq_left hlt.le
    have hbetween : Between (nearestPosition num den) (num / den) := by
      refine ⟨fun q hq => (lt_nearestPosition_iff num hden).mp hq, ?_⟩
      rw [← lt_nearestPosition_iff num hden]
      exact lt_irrefl _
    refine Between.rounds ?_ ?_
    · rwa [hposition, hscale]
    · rwa [isInfinite_eq_false_iff, hposition]
  · have hinfinity : nearest num den = infinity := by
      simp only [nearest, infinity, Nat.min_eq_right hge]
    rw [hinfinity]
    refine rounds_infinity (past_last_iff.mp ?_)
    rw [hscale, ← lt_nearestPosition_iff num hden]
    omega

/-- The magnitude of a natural number. -/
theorem rounds_ofNat (n : ℕ) : Rounds n (ofNat n) := by
  have hunits : ((n * unitsPerOne : ℕ) : ℚ) / (1 : ℕ) / unitsPerOne = n := by
    rw [Nat.cast_mul, Nat.cast_one, div_one, mul_div_cancel_right₀ _ unitsPerOne_pos.ne']
  have hnearest := rounds_nearest (n * unitsPerOne) Nat.one_pos
  rwa [hunits] at hnearest

/-- A finite magnitude is its own rounding. -/
theorem rounds_value (hfinite : m.isInfinite = false) : Rounds m.value m := by
  have hpos := unitsPerOne_pos
  have hscale : m.value * unitsPerOne = unitsAt m.position := by
    rw [value, units]
    field_simp
  refine Between.rounds ?_ hfinite
  rw [hscale]
  exact between_unitsAt m.position

/-- Of two magnitudes that a number is rounded to neither lies beyond the
other. -/
theorem Rounds.position_le (h : Rounds x m) (h' : Rounds x m') (hfinite' : m'.isInfinite = false) :
    m'.position ≤ m.position := by
  by_contra hbeyond
  have hlt : m.position < m'.position := not_le.mp hbeyond
  have htop := isInfinite_eq_false_iff.mp hfinite'
  have hfinite : m.isInfinite = false := isInfinite_eq_false_iff.mpr (hlt.trans htop)
  have hne : m' ≠ m := fun heq => hlt.ne (by rw [heq])
  have heq : |x - m.value| = |x - m'.value| :=
    le_antisymm (h.nearest hfinite m' hfinite') (h'.nearest hfinite' m hfinite)
  have heven := h.even hfinite m' hfinite' hne heq
  have heven' := h'.even hfinite' m hfinite hne.symm heq.symm
  -- both are even, so there is a magnitude between them, which would be nearer
  have hbetween : m.position + 1 ≤ 0x7ff0000000000000 := by omega
  let k : Magnitude := ⟨m.position + 1, hbetween⟩
  have hk : k.isInfinite = false := isInfinite_eq_false_iff.mpr (by simp only [k]; omega)
  have hmk : (m.units : ℚ) < k.units := by
    exact_mod_cast unitsAt_strictMono (Nat.lt_succ_self m.position)
  have hkm' : (k.units : ℚ) < m'.units := by
    exact_mod_cast unitsAt_strictMono (show m.position + 1 < m'.position by omega)
  have hnear := h.nearest hfinite k hk
  have hnear' := h'.nearest hfinite' k hk
  simp only [abs_sub_value, div_le_div_iff_of_pos_right unitsPerOne_pos] at hnear hnear'
  rw [(abs_sub_le_iff_midpoint hmk).1] at hnear
  rw [(abs_sub_le_iff_midpoint hkm').2] at hnear'
  linarith

/-- A number is rounded to one magnitude only. -/
theorem Rounds.unique (h : Rounds x m) (h' : Rounds x m') : m = m' := by
  apply eq_of_position
  cases hm : m.isInfinite with
  | true =>
    have hm' : m'.isInfinite = true := h'.overflow.mpr (h.overflow.mp hm)
    rw [eq_of_beq hm, eq_of_beq hm']
  | false =>
    have hm' : m'.isInfinite = false := by
      rw [← Bool.not_eq_true, h'.overflow, ← h.overflow, hm]
      exact Bool.false_ne_true
    exact le_antisymm (h'.position_le h hm) (h.position_le h' hm')

end Rounds

end ReversePolish.Magnitude
