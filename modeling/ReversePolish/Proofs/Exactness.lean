/-
ReversePolish/Proofs/Exactness.lean

Results that need no rounding.  A finite magnitude is `r` steps of `2 ^ s`
units, with no more steps than two binades have positions, and all such
multiples are magnitudes (`Magnitude.exists_units`).  So what is left of a
magnitude after a division by another one is a magnitude again: it is a
multiple of the smaller of the two steps, and not too large a multiple
(`Magnitude.exists_units_mod`).

A difference is exact as soon as its value is that of some magnitude
(`Number.rational?_sub`), and numbers are in the order of the rational numbers
that they are (`Number.less_iff`).

The whole part of a rational number is taken toward zero (`truncation`), so that
it is the whole part of the magnitude with the sign put back.
-/
import Mathlib.Algebra.Order.Floor.Semifield
import ReversePolish.Number.Arithmetic
import ReversePolish.Proofs.Spacing

namespace ReversePolish

namespace Magnitude

variable {m m' a b : Magnitude} {n : ℕ}

/-! ### Magnitudes by their units -/

theorem value_lt_iff : m.value < m'.value ↔ m.position < m'.position :=
  lt_iff_lt_of_le_iff_le value_le_iff

theorem value_zero : zero.value = 0 := by
  have hunits : zero.units = 0 := rfl
  rw [value, hunits, Nat.cast_zero, zero_div]

theorem value_pos_iff : 0 < m.value ↔ 0 < m.position := by
  rw [← value_zero, value_lt_iff]
  rfl

theorem value_nonneg (m : Magnitude) : 0 ≤ m.value :=
  div_nonneg (Nat.cast_nonneg _) unitsPerOne_pos.le

theorem units_eq (h : m.value = n) : m.units = n * unitsPerOne := by
  rw [value, div_eq_iff unitsPerOne_pos.ne'] at h
  exact_mod_cast h

/-- A value given as a fraction. -/
theorem value_eq_div {n d : ℕ} (hd : d ≠ 0) (h : m.units * d = n * unitsPerOne) :
    m.value = n / d := by
  rw [value, div_eq_div_iff unitsPerOne_pos.ne' (Nat.cast_ne_zero.mpr hd)]
  exact_mod_cast h

theorem isInfinite_iff : m.isInfinite = true ↔ m = infinity := by
  constructor
  · intro h
    exact eq_of_position (eq_of_beq h)
  · rintro rfl
    rfl

/-- What is no more than a finite magnitude is finite. -/
theorem isFinite_of_le (h : m.value ≤ m'.value) (hfinite : m'.isInfinite = false) :
    m.isInfinite = false := by
  rw [isInfinite_eq_false_iff] at hfinite ⊢
  exact (value_le_iff.mp h).trans_lt hfinite

/-- A finite magnitude in units is its own rounding. -/
theorem nearest_units (hfinite : m.isInfinite = false) : nearest m.units 1 = m := by
  have hrounds := rounds_nearest m.units Nat.one_pos
  rw [Nat.cast_one, div_one] at hrounds
  exact hrounds.unique (rounds_value hfinite)

/-! ### Remainders -/

/-- **A remainder is a magnitude.** -/
theorem exists_units_mod (ha : a.isInfinite = false) (hb : b.isInfinite = false) :
    ∃ m : Magnitude, m.units = a.units % b.units := by
  by_cases hzero : b.units = 0
  · exact ⟨a, by rw [hzero, Nat.mod_zero]⟩
  obtain ⟨s, r, hr, hrsteps, hs⟩ := exists_steps a
  obtain ⟨t, q, hq, hqsteps, ht⟩ := exists_steps b
  have hqpos : 0 < q := by
    rw [Nat.pos_iff_ne_zero]
    rintro rfl
    exact hzero (by rw [hq, zero_mul])
  rcases Nat.le_total t s with hts | hst
  · -- a multiple of the divisor's step, and less than the divisor
    have hcommon : a.units = r * 2 ^ (s - t) * 2 ^ t := by
      rw [hr, mul_assoc, ← pow_add, Nat.sub_add_cancel hts]
    rw [hcommon, hq, Nat.mul_mod_mul_right]
    exact exists_units ((Nat.mod_lt _ hqpos).trans hqsteps).le (ht hb)
  · -- a multiple of the dividend's step, and no more than the dividend
    have hcommon : b.units = q * 2 ^ (t - s) * 2 ^ s := by
      rw [hq, mul_assoc, ← pow_add, Nat.sub_add_cancel hst]
    rw [hr, hcommon, Nat.mul_mod_mul_right]
    exact exists_units ((Nat.mod_le _ _).trans hrsteps.le) (hs ha)

/-! ### Whole parts -/

theorem whole_eq (h : m.value = n) : m.whole = n := by
  rw [whole, units_eq h]
  exact Nat.mul_div_cancel _ (by decide)

theorem whole_eq_floor (m : Magnitude) : m.whole = ⌊m.value⌋₊ :=
  (Nat.floor_div_eq_div m.units unitsPerOne).symm

theorem whole_le_value (m : Magnitude) : (m.whole : ℚ) ≤ m.value := by
  rw [whole_eq_floor]
  exact Nat.floor_le m.value_nonneg

/-- What is left without the whole part. -/
theorem value_sub_whole (m : Magnitude) :
    m.value - m.whole = (m.units % unitsPerOne : ℕ) / unitsPerOne := by
  have hunits : (m.units : ℚ) = unitsPerOne * m.whole + (m.units % unitsPerOne : ℕ) := by
    exact_mod_cast (Nat.div_add_mod m.units unitsPerOne).symm
  have hpos := unitsPerOne_pos
  rw [value, hunits]
  field_simp
  ring

/-- What is left of a finite magnitude without its whole part is a magnitude. -/
theorem exists_value_sub_whole (hfinite : m.isInfinite = false) :
    ∃ rest : Magnitude, rest.isInfinite = false ∧ rest.value = m.value - m.whole := by
  have hone : (ofNat 1).units = unitsPerOne := by
    rw [units_eq (value_ofNat_of_le (by decide)), one_mul]
  obtain ⟨rest, hrest⟩ := exists_units_mod hfinite (isFinite_ofNat (n := 1) (by decide))
  rw [hone] at hrest
  have hvalue : rest.value = m.value - m.whole := by rw [value, hrest, value_sub_whole]
  refine ⟨rest, isFinite_of_le ?_ hfinite, hvalue⟩
  rw [hvalue]
  exact sub_le_self _ (Nat.cast_nonneg _)

/-- The whole part of a finite magnitude is finite. -/
theorem isFinite_ofNat_whole (hfinite : m.isInfinite = false) :
    (ofNat m.whole).isInfinite = false := by
  refine isFinite_of_le ?_ hfinite
  rw [value_ofNat_whole hfinite]
  exact m.whole_le_value

end Magnitude

/-! ### Truncation -/

/-- The whole part of a rational number, toward zero. -/
def truncation (x : ℚ) : ℤ := if 0 ≤ x then ⌊x⌋ else ⌈x⌉

theorem truncation_of_nonneg {x : ℚ} (h : 0 ≤ x) : truncation x = ⌊x⌋₊ := by
  rw [truncation, if_pos h, Int.natCast_floor_eq_floor h]

theorem truncation_intCast (n : ℤ) : truncation n = n := by
  rw [truncation, Int.floor_intCast, Int.ceil_intCast, ite_self]

theorem truncation_neg (x : ℚ) : truncation (-x) = -truncation x := by
  rcases lt_trichotomy x 0 with hneg | rfl | hpos
  · rw [truncation, truncation, if_pos (by linarith), if_neg (by linarith), Int.floor_neg]
  · rw [neg_zero, ← Int.cast_zero, truncation_intCast, neg_zero]
  · rw [truncation, truncation, if_neg (by linarith), if_pos hpos.le, Int.ceil_neg]

theorem truncation_mono {x y : ℚ} (hle : x ≤ y) : truncation x ≤ truncation y := by
  unfold truncation
  split_ifs with hx hy hy
  · exact Int.floor_mono hle
  · exact absurd (hx.trans hle) hy
  · -- across zero
    exact (Int.ceil_nonpos.mpr (not_le.mp hx).le).trans (Int.floor_nonneg.mpr hy)
  · exact Int.ceil_mono hle

namespace Number

open Magnitude (unitsPerOne)

variable {a b : Number} {p q : ℚ}

/-! ### Numbers by their values -/

theorem exists_of_rational? (h : a.rational? = some p) :
    ∃ s m, a = signed s m ∧ m.isInfinite = false ∧ p = if s then -m.value else m.value := by
  cases a with
  | nan => cases h
  | signed s m =>
    cases hm : m.isInfinite with
    | true => simp [rational?, hm] at h
    | false =>
      simp only [rational?, hm, Bool.false_eq_true, if_false, Option.some.injEq] at h
      exact ⟨s, m, rfl, hm, h.symm⟩

theorem rational?_signed {m : Magnitude} (s : Bool) (hfinite : m.isInfinite = false) :
    (signed s m).rational? = some (if s then -m.value else m.value) := by
  rw [rational?, hfinite]
  rfl

/-- A value given as a fraction. -/
theorem rational?_eq_div {m : Magnitude} {n d : ℕ} (s : Bool) (hfinite : m.isInfinite = false)
    (hd : d ≠ 0) (h : m.units * d = n * unitsPerOne) :
    (signed s m).rational? = some (if s then -((n : ℚ) / d) else n / d) := by
  rw [rational?_signed s hfinite, Magnitude.value_eq_div hd h]

theorem abs_rational (s : Bool) (m : Magnitude) : |if s then -m.value else m.value| = m.value := by
  cases s with
  | false => exact abs_of_nonneg m.value_nonneg
  | true => exact (abs_neg m.value).trans (abs_of_nonneg m.value_nonneg)

theorem rational?_ofNat {n : ℕ} (hfinite : (Magnitude.ofNat n).isInfinite = false)
    (hvalue : (Magnitude.ofNat n).value = n) : (ofNat n).rational? = some (n : ℚ) := by
  rw [ofNat, rational?_signed false hfinite, ← hvalue]
  rfl

theorem cast_signedUnits (s : Bool) (m : Magnitude) :
    (signedUnits s m : ℚ) / unitsPerOne = if s then -m.value else m.value := by
  cases s with
  | false => simp [signedUnits, Magnitude.value]
  | true => simp [signedUnits, Magnitude.value, neg_div]

/-- A whole number of units that is a magnitude is not rounded. -/
theorem rational?_ofUnits (zeroSign : Bool) {n : ℤ} {m : Magnitude} (hfinite : m.isInfinite = false)
    (hunits : m.units = n.natAbs) : (ofUnits zeroSign n).rational? = some ((n : ℚ) / unitsPerOne) := by
  rw [ofUnits]
  split
  · rename_i hzero
    rw [rational?_signed zeroSign rfl, Magnitude.value_zero, hzero]
    simp
  · have hsigned : signedUnits (decide (n < 0)) m = n := by
      by_cases hneg : n < 0
      · simp only [hneg, decide_true, signedUnits, hunits]
        omega
      · simp only [hneg, decide_false, signedUnits, hunits]
        omega
    rw [← hunits, Magnitude.nearest_units hfinite, rational?_signed _ hfinite, ← cast_signedUnits,
      hsigned]

/-- **A difference that is a number is exact.** -/
theorem rational?_sub (ha : a.rational? = some p) (hb : b.rational? = some q) {m : Magnitude}
    (hfinite : m.isInfinite = false) (hvalue : m.value = |p - q|) :
    (a.sub b).rational? = some (p - q) := by
  obtain ⟨s, k, rfl, hk, rfl⟩ := exists_of_rational? ha
  obtain ⟨t, l, rfl, hl, rfl⟩ := exists_of_rational? hb
  have hsub : (signed s k).sub (signed t l) =
      ofUnits (s && !t) (signedUnits s k + signedUnits (!t) l) := by
    simp [sub, neg, add, hk, hl]
  have hneg : signedUnits (!t) l = -signedUnits t l := by
    cases t <;> simp [signedUnits]
  rw [hsub, hneg, ← sub_eq_add_neg]
  rw [← cast_signedUnits, ← cast_signedUnits, ← sub_div, ← Int.cast_sub] at hvalue ⊢
  generalize signedUnits s k - signedUnits t l = n at hvalue ⊢
  apply rational?_ofUnits _ hfinite
  have hpos := Magnitude.unitsPerOne_pos
  rw [Magnitude.value, abs_div, abs_of_pos hpos, div_left_inj' hpos.ne'] at hvalue
  rw [← Nat.cast_inj (R := ℚ), hvalue, Nat.cast_natAbs, Int.cast_abs]

/-- Numbers are in the order of their values. -/
theorem less_iff (ha : a.rational? = some p) (hb : b.rational? = some q) :
    a.less b = true ↔ p < q := by
  obtain ⟨s, k, rfl, -, rfl⟩ := exists_of_rational? ha
  obtain ⟨t, l, rfl, -, rfl⟩ := exists_of_rational? hb
  have hk := k.value_nonneg
  have hl := l.value_nonneg
  rw [less, decide_eq_true_iff]
  cases s with
  | false =>
    cases t with
    | false => simpa [place] using Magnitude.value_lt_iff.symm
    | true =>
      -- neither holds
      simp only [place, if_true, Bool.false_eq_true, if_false]
      exact iff_of_false (by omega) (by linarith)
  | true =>
    cases t with
    | false =>
      -- both hold unless both are zero
      have hkpos := k.value_pos_iff
      have hlpos := l.value_pos_iff
      simp only [place, if_true, Bool.false_eq_true, if_false]
      constructor
      · intro hless
        rcases (by omega : 0 < k.position ∨ 0 < l.position) with hpos | hpos
        · linarith [hkpos.mpr hpos]
        · linarith [hlpos.mpr hpos]
      · intro hless
        by_contra hzero
        have hkzero := mt hkpos.mp (by omega)
        have hlzero := mt hlpos.mp (by omega)
        linarith
    | true => simpa [place] using Magnitude.value_lt_iff.symm

end Number

end ReversePolish
