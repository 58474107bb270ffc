/-
ReversePolish/Proofs/Remainder.lean

The remainder of the division that truncates toward zero.  The quotient of two
numbers can be far beyond every number, but the remainder never is: all finite
numbers are whole numbers of units, and what is left of such a number after a
division by another one is the value of a number (`Magnitude.exists_units_mod`).
So the remainder is not rounded, and `Number.rem_exact` gives its value as a
rational number.

With the sign of the dividend it is also the only number that differs from the
dividend by a whole multiple of the divisor and is smaller than the divisor
(`Remains`).  Nothing has to be known about the quotient for this.
-/
import ReversePolish.Proofs.Exactness

namespace ReversePolish

open Routine

/-! ### Magnitudes -/

namespace Magnitude

variable {a b r : Magnitude}

/-- A remainder of units is not rounded. -/
theorem exists_nearest_mod (ha : a.isInfinite = false) (hb : b.isInfinite = false) :
    ∃ r, nearest (a.units % b.units) 1 = r ∧ r.isInfinite = false ∧
      r.units = a.units % b.units := by
  obtain ⟨r, hr⟩ := exists_units_mod ha hb
  have hle : r.value ≤ a.value := by
    rw [value, value, hr, div_le_div_iff_of_pos_right unitsPerOne_pos, Nat.cast_le]
    exact Nat.mod_le _ _
  have hfinite := isFinite_of_le hle ha
  exact ⟨r, by rw [← hr, nearest_units hfinite], hfinite, hr⟩

theorem value_of_mod (h : r.units = a.units % b.units) :
    r.value = a.value - b.value * ⌊a.value / b.value⌋₊ := by
  have hunits : (a.units : ℚ) = b.units * (a.units / b.units : ℕ) + r.units := by
    rw [h]
    exact_mod_cast (Nat.div_add_mod a.units b.units).symm
  have hquotient : ⌊a.value / b.value⌋₊ = a.units / b.units := by
    rw [value, value, div_div_div_cancel_right₀ unitsPerOne_pos.ne', Nat.floor_div_eq_div]
  rw [hquotient, value, value, value, hunits]
  ring

theorem value_of_mod_lt (h : r.units = a.units % b.units) (hb : 0 < b.value) :
    r.value < b.value := by
  rw [value, div_pos_iff_of_pos_right unitsPerOne_pos, Nat.cast_pos] at hb
  rw [value, value, h, div_lt_div_iff_of_pos_right unitsPerOne_pos, Nat.cast_lt]
  exact Nat.mod_lt _ hb

/-- Of the magnitudes that differ by whole multiples only one is small enough. -/
theorem value_of_multiple {n : ℤ} (h : r.value = a.value - b.value * n) (hless : r.value < b.value) :
    r.value = a.value - b.value * ⌊a.value / b.value⌋₊ := by
  have hnonneg := r.value_nonneg
  have hpos : 0 < b.value := hnonneg.trans_lt hless
  have hfloor : ⌊a.value / b.value⌋ = n := by
    rw [Int.floor_eq_iff, le_div_iff₀ hpos, div_lt_iff₀ hpos]
    constructor <;> linarith
  rw [h, natCast_floor_eq_intCast_floor (div_nonneg a.value_nonneg b.value_nonneg), hfloor]

theorem eq_of_value (h : r.value = a.value) : r = a :=
  eq_of_position (le_antisymm (value_le_iff.mp h.le) (value_le_iff.mp h.ge))

end Magnitude

/-! ### Signs -/

section Signs

variable (s t : Bool) {x y z : ℚ}

/-- Only the sign of the dividend matters for what is left. -/
theorem sub_mul_truncation (hx : 0 ≤ x) (hy : 0 ≤ y) :
    (if s then -x else x) - (if t then -y else y) *
        truncation ((if s then -x else x) / if t then -y else y) =
      if s then -(x - y * ⌊x / y⌋₊) else x - y * ⌊x / y⌋₊ := by
  have hquotient : truncation (x / y) = ⌊x / y⌋₊ := truncation_of_nonneg (div_nonneg hx hy)
  cases s with
  | false =>
    cases t with
    | false => simp [hquotient]
    | true => simp [div_neg, truncation_neg, hquotient]
  | true =>
    cases t with
    | false => simp [neg_div, truncation_neg, hquotient]; ring
    | true => simp [neg_div_neg_eq, hquotient]; ring

theorem exists_multiple {n : ℤ}
    (h : (if s then -z else z) = (if s then -x else x) - (if t then -y else y) * n) :
    ∃ k : ℤ, z = x - y * k := by
  cases s with
  | false =>
    cases t with
    | false => exact ⟨n, by simpa using h⟩
    | true => exact ⟨-n, by simpa using h⟩
  | true =>
    cases t with
    | false => exact ⟨-n, by simp at h ⊢; linarith⟩
    | true => exact ⟨n, by simp at h ⊢; linarith⟩

end Signs

namespace Number

/-! ### Remainders of finite numbers -/

/-- The number `r` remains of `a`, which has the value `x`, when a whole multiple of
`y` is taken away: it is smaller than `y` and has the sign of `a`. -/
structure Remains (a : Number) (x y : ℚ) (r : Number) : Prop where
  value : ∃ n : ℤ, r.rational? = some (x - y * n) ∧ |x - y * n| < |y|
  sign : r.isNegative = a.isNegative

section Finite

variable {a b : Number} {x y : ℚ}

/-- The remainder in units. -/
theorem exists_rem (ha : a.rational? = some x) (hb : b.rational? = some y) (hy : y ≠ 0) :
    ∃ (s t : Bool) (m k r : Magnitude), a.isNegative = s ∧
      x = (if s then -m.value else m.value) ∧ y = (if t then -k.value else k.value) ∧
      0 < k.value ∧ a.rem b = signed s r ∧ r.isInfinite = false ∧ r.units = m.units % k.units := by
  obtain ⟨s, m, rfl, hm, rfl⟩ := exists_of_rational? ha
  obtain ⟨t, k, rfl, hk, rfl⟩ := exists_of_rational? hb
  obtain ⟨r, hnearest, hfinite, hunits⟩ := Magnitude.exists_nearest_mod hm hk
  have hpos : 0 < k.value := by
    rw [← abs_rational t k]
    exact abs_pos.mpr hy
  have hzero : k.isZero = false :=
    beq_eq_false_iff_ne.mpr (Magnitude.value_pos_iff.mp hpos).ne'
  exact ⟨s, t, m, k, r, rfl, rfl, rfl, hpos, by simp [rem, hm, hk, hzero, hnearest], hfinite, hunits⟩

/-- The remainder is exact, and smaller than the divisor. -/
theorem rational?_rem (ha : a.rational? = some x) (hb : b.rational? = some y) (hy : y ≠ 0) :
    (a.rem b).rational? = some (x - y * truncation (x / y)) ∧
      |x - y * truncation (x / y)| < |y| := by
  obtain ⟨s, t, m, k, r, -, rfl, rfl, hpos, hrem, hfinite, hunits⟩ := exists_rem ha hb hy
  rw [sub_mul_truncation s t m.value_nonneg k.value_nonneg, ← Magnitude.value_of_mod hunits, hrem,
    rational?_signed s hfinite, abs_rational, abs_rational]
  exact ⟨rfl, Magnitude.value_of_mod_lt hunits hpos⟩

theorem isNegative_rem (ha : a.rational? = some x) (hb : b.rational? = some y) (hy : y ≠ 0) :
    (a.rem b).isNegative = a.isNegative := by
  obtain ⟨s, -, -, -, r, hsign, -, -, -, hrem, -, -⟩ := exists_rem ha hb hy
  rw [hrem, hsign, isNegative]

/-- No other number remains. -/
theorem Remains.eq_rem {r : Number} (h : Remains a x y r) (ha : a.rational? = some x)
    (hb : b.rational? = some y) (hy : y ≠ 0) : r = a.rem b := by
  obtain ⟨s, t, m, k, r', hsign, rfl, rfl, -, hrem, -, hunits⟩ := exists_rem ha hb hy
  obtain ⟨⟨n, hr, hless⟩, hsame⟩ := h
  obtain ⟨s', l, rfl, -, hvalue⟩ := exists_of_rational? hr
  obtain rfl : s' = s := hsame.trans hsign
  rw [hvalue, abs_rational, abs_rational] at hless
  obtain ⟨q, hq⟩ := exists_multiple s' t hvalue.symm
  have hleft : l.value = r'.value := by
    rw [Magnitude.value_of_multiple hq hless, Magnitude.value_of_mod hunits]
  rw [hrem, Magnitude.eq_of_value hleft]

end Finite

/-! ### The other numbers -/

theorem rem_infinity {a : Number} {x : ℚ} (ha : a.rational? = some x) (s : Bool) :
    a.rem (signed s .infinity) = a := by
  obtain ⟨t, m, rfl, hfinite, -⟩ := exists_of_rational? ha
  have hinfinite : Magnitude.infinity.isInfinite = true := rfl
  have hzero : Magnitude.infinity.isZero = false := rfl
  simp [rem, hfinite, hinfinite, hzero]

theorem isNaN_rem_iff (a b : Number) :
    (a.rem b).isNaN = true ↔
      a.isNaN = true ∨ b.isNaN = true ∨ (∃ s, a = signed s .infinity) ∨ b.isZero = true := by
  cases a with
  | nan => simp [rem, isNaN]
  | signed s m =>
    cases b with
    | nan => simp [rem, isNaN]
    | signed t k =>
      have hrem : ((signed s m).rem (signed t k)).isNaN = (m.isInfinite || k.isZero) := by
        rw [rem]
        cases m.isInfinite || k.isZero with
        | true => rfl
        | false =>
          rw [if_neg Bool.false_ne_true]
          split <;> rfl
      rw [hrem, Bool.or_eq_true, Magnitude.isInfinite_iff]
      simp [isNaN, isZero]

theorem eq_nan_of_isNaN {a : Number} (h : a.isNaN = true) : a = nan := by
  cases a with
  | nan => rfl
  | signed s m => cases h

theorem isZero_of_rational? {b : Number} (h : b.rational? = some 0) : b.isZero = true := by
  obtain ⟨t, k, rfl, -, hvalue⟩ := exists_of_rational? h
  have hzero : k.value = 0 := by rw [← abs_rational t k, ← hvalue, abs_zero]
  have hposition : ¬0 < k.position := by rw [← Magnitude.value_pos_iff, hzero]; exact lt_irrefl 0
  exact beq_iff_eq.mpr (Nat.eq_zero_of_not_pos hposition)

/-- NaN, an infinity, or a finite number. -/
theorem nan_or_infinite_or_finite (a : Number) :
    a.isNaN = true ∨ (∃ s, a = signed s .infinity) ∨ ∃ x, a.rational? = some x := by
  cases a with
  | nan => exact Or.inl rfl
  | signed s m =>
    cases hm : m.isInfinite with
    | true => exact Or.inr (Or.inl ⟨s, by rw [Magnitude.isInfinite_iff.mp hm]⟩)
    | false => exact Or.inr (Or.inr ⟨_, rational?_signed s hm⟩)

/-! ### Remainder functions that may fail -/

/-- A remainder function that fails where there is no remainder: for an infinite
dividend and for a divisor that is zero.  Of finite numbers it gives some number
that remains, and an infinite divisor leaves the dividend as it is. -/
structure PartialRemainder (f : Number → Number → Option Number) : Prop where
  nan : ∀ a b, a.isNaN = true ∨ b.isNaN = true → f a b = some .nan
  dividend : ∀ s b, b.isNaN = false → f (signed s .infinity) b = none
  divisor : ∀ a b, a.isNaN = false → b.isZero = true → f a b = none
  infinite : ∀ a x s, a.rational? = some x → f a (signed s .infinity) = some a
  finite : ∀ a b x y, a.rational? = some x → b.rational? = some y → y ≠ 0 →
    ∃ r, f a b = some r ∧ Remains a x y r

/-- With NaN where it fails, every such function is the remainder. -/
theorem PartialRemainder.getD_nan {f : Number → Number → Option Number} (h : PartialRemainder f)
    (a b : Number) : (f a b).getD .nan = a.rem b := by
  have hnan := isNaN_rem_iff a b
  by_cases hnans : a.isNaN = true ∨ b.isNaN = true
  · rw [h.nan a b hnans, eq_nan_of_isNaN (hnan.mpr (hnans.imp_right Or.inl))]
    rfl
  · rw [not_or, Bool.not_eq_true, Bool.not_eq_true] at hnans
    rcases a.nan_or_infinite_or_finite with ha | ⟨s, rfl⟩ | ⟨x, hx⟩
    · rw [hnans.1] at ha
      cases ha
    · rw [h.dividend s b hnans.2, eq_nan_of_isNaN (hnan.mpr (.inr (.inr (.inl ⟨s, rfl⟩))))]
      rfl
    · rcases b.nan_or_infinite_or_finite with hb | ⟨t, rfl⟩ | ⟨y, hy⟩
      · rw [hnans.2] at hb
        cases hb
      · rw [h.infinite a x t hx, rem_infinity hx]
        rfl
      · by_cases hzero : y = 0
        · have hdivisor : b.isZero = true := isZero_of_rational? (hzero ▸ hy)
          rw [h.divisor a b hnans.1 hdivisor,
            eq_nan_of_isNaN (hnan.mpr (.inr (.inr (.inr hdivisor))))]
          rfl
        · obtain ⟨r, hr, hremains⟩ := h.finite a b x y hx hy hzero
          rw [hr, hremains.eq_rem hx hy hzero]
          rfl

/-- The remainder, unless it is NaN on account of numbers that are not. -/
def rem? (a b : Number) : Option Number :=
  if (a.rem b).isNaN && !a.isNaN && !b.isNaN then none else some (a.rem b)

theorem partialRemainder_rem? : PartialRemainder rem? where
  nan a b h := by
    have hrem : a.rem b = .nan := eq_nan_of_isNaN ((isNaN_rem_iff a b).mpr (h.imp_right Or.inl))
    rcases h with h | h <;> simp [rem?, hrem, h]
  dividend s b hb := by
    have hrem := (isNaN_rem_iff (signed s .infinity) b).mpr (.inr (.inr (.inl ⟨s, rfl⟩)))
    rw [rem?, hrem, hb]
    rfl
  divisor a b ha hb := by
    have hrem := (isNaN_rem_iff a b).mpr (.inr (.inr (.inr hb)))
    obtain ⟨t, k, rfl⟩ : ∃ t k, b = signed t k := by
      cases b with
      | nan => cases hb
      | signed t k => exact ⟨t, k, rfl⟩
    rw [rem?, hrem, ha]
    rfl
  infinite a x s ha := by
    obtain ⟨t, m, rfl, -, -⟩ := exists_of_rational? ha
    rw [rem?, rem_infinity ha]
    rfl
  finite a b x y ha hb hy := by
    obtain ⟨hvalue, hless⟩ := rational?_rem ha hb hy
    obtain ⟨s, m, hrem, -, -⟩ := exists_of_rational? hvalue
    refine ⟨a.rem b, ?_, ⟨_, hvalue, hless⟩, isNegative_rem ha hb hy⟩
    rw [rem?, hrem]
    rfl

end Number

/-- Two operands as numbers. -/
theorem exchanges_onNumbers {x y : Value} {p q : Number} (hx : x.toNumber = .ok p)
    (hy : y.toNumber = .ok q) (f : Number → Number → Value) :
    Exchanges (Operator.onNumbers f) [x, y] [f p q] := by
  refine .of_run fun m => ?_
  have hright : runOn popNumber (m.holding [x, y]) = (.ok q, m.holding [x]) :=
    runOn_popNumber hy (m.holding [x])
  rw [Operator.onNumbers, runOn_bind_of_ok hright, runOn_bind_of_ok (runOn_popNumber hx m)]
  rfl

/-- **The remainder is exact.**  Of finite numbers, if the divisor is not zero, it is
what a division that truncates toward zero leaves, as a rational number.  It is
smaller than the divisor and has the sign of the dividend, also if it is zero.  An
infinite divisor leaves a finite dividend as it is.  The remainder is NaN exactly
if one of the numbers is, if the dividend is infinite or if the divisor is zero;
so it is what any remainder function gives that fails there, with NaN for the
failure.  The command never fails. -/
theorem Number.rem_exact (a b : Number) :
    (∀ x y : ℚ, a.rational? = some x → b.rational? = some y → y ≠ 0 →
      (a.rem b).rational? = some (x - y * truncation (x / y)) ∧
      |x - y * truncation (x / y)| < |y| ∧ (a.rem b).isNegative = a.isNegative) ∧
    (∀ (x : ℚ) (s : Bool), a.rational? = some x → b = signed s .infinity → a.rem b = a) ∧
    ((a.rem b).isNaN = true ↔
      a.isNaN = true ∨ b.isNaN = true ∨ (∃ s, a = signed s .infinity) ∨ b.isZero = true) ∧
    (∀ f, PartialRemainder f → (f a b).getD .nan = a.rem b) ∧
    ∀ (v w : Value) (evaluate : String → Routine Unit) (bound : Nat),
      v.toNumber = .ok a → w.toNumber = .ok b →
      Exchanges (execute evaluate bound "mod") [v, w] [.number (a.rem b)] := by
  refine ⟨fun x y ha hb hy => ?_, ?_, isNaN_rem_iff a b, fun f hf => hf.getD_nan a b, ?_⟩
  · obtain ⟨hvalue, hless⟩ := rational?_rem ha hb hy
    exact ⟨hvalue, hless, isNegative_rem ha hb hy⟩
  · rintro x s ha rfl
    exact rem_infinity ha s
  · intro v w evaluate bound hv hw
    exact .execute (c := .operator .remainder) (exchanges_onNumbers hv hw _)

/-- The largest finite number, below zero, by three units and by one, where the
quotient has more than two thousand binary digits; by an infinity, the other way
round, and with a remainder function that fails; and a text by a truth value. -/
theorem Number.rem_exact_limits :
    let largest : Number := signed true ⟨0x7fefffffffffffff, by decide⟩
    let three : Number := signed false ⟨3, by decide⟩
    let unit : Number := signed true ⟨1, by decide⟩
    let x : ℚ := -(0x1fffffffffffff * 2 ^ 971)
    let y : ℚ := 3 / 2 ^ 1074
    (largest.rational? = some x ∧ three.rational? = some y ∧
      largest.rem three = signed true ⟨2, by decide⟩ ∧
      (largest.rem three).rational? = some (x - y * truncation (x / y)) ∧
      |x - y * truncation (x / y)| < |y| ∧ (largest.rem three).isNegative = true) ∧
    (largest.rem unit = signed true .zero ∧ (largest.rem unit).isNegative = true) ∧
    largest.rem infinity = largest ∧ (infinity.rem largest).isNaN = true ∧
    rem? infinity largest = none ∧ (rem? infinity largest).getD .nan = infinity.rem largest ∧
    Exchanges (execute (evaluate 1) 1 "mod") [.text "-7.5", .truth true]
      [.number (.signed true ⟨0x3fe0000000000000, by decide⟩)] := by
  intro largest three unit x y
  have hx : largest.rational? = some x := by
    have hvalue := rational?_eq_div (m := ⟨0x7fefffffffffffff, by decide⟩)
      (n := 0x1fffffffffffff * 2 ^ 971) true (by decide) one_ne_zero (by decide +kernel)
    rwa [if_pos rfl, Nat.cast_one, div_one, Nat.cast_mul, Nat.cast_pow, Nat.cast_ofNat,
      Nat.cast_ofNat] at hvalue
  have hy : three.rational? = some y := by
    have hvalue := rational?_eq_div (m := ⟨3, by decide⟩) (n := 3) (d := 2 ^ 1074) false (by decide)
      (by decide +kernel) (by decide +kernel)
    rwa [if_neg Bool.false_ne_true, Nat.cast_pow, Nat.cast_ofNat, Nat.cast_ofNat] at hvalue
  have hunit : unit.rational? = some (-(1 / 2 ^ 1074)) := by
    have hvalue := rational?_eq_div (m := ⟨1, by decide⟩) (n := 1) (d := 2 ^ 1074) true (by decide)
      (by decide +kernel) (by decide +kernel)
    rwa [if_pos rfl, Nat.cast_one, Nat.cast_pow, Nat.cast_ofNat] at hvalue
  have hinfinite := (rem_exact largest infinity).2.1 x false hx rfl
  obtain ⟨hvalue, hless, hsign⟩ := (rem_exact largest three).1 x y hx hy (by positivity)
  obtain ⟨-, -, hzero⟩ := (rem_exact largest unit).1 x _ hx hunit (neg_ne_zero.mpr (by positivity))
  obtain ⟨-, -, hnan, hfails, -⟩ := rem_exact infinity largest
  have hmod := (rem_exact (signed true ⟨0x401e000000000000, by decide⟩) one).2.2.2.2 (.text "-7.5")
    (.truth true) (evaluate 1) 1 (by decide +kernel) rfl
  have hhalf : (signed true ⟨0x401e000000000000, by decide⟩).rem one =
      signed true ⟨0x3fe0000000000000, by decide⟩ := by decide +kernel
  rw [hhalf] at hmod
  exact ⟨⟨hx, hy, by decide +kernel, hvalue, hless, hsign⟩, ⟨by decide +kernel, hzero⟩, hinfinite,
    hnan.mpr (.inr (.inr (.inl ⟨false, rfl⟩))), by decide, hfails rem? partialRemainder_rem?, hmod⟩

end ReversePolish
