/-
ReversePolish/Proofs/Decimal.lean

Decimals and magnitudes.  Reading a decimal rounds its exact value, however
many digits it has and however large its exponent is
(`Decimal.rounds_toMagnitude`), so a decimal may be exchanged for another one
of the same value.

Writing picks a decimal that reads back.  On a grid of multiples of a power of
ten the points that read back are those between the midpoints around the
magnitude (`Magnitude.readsAs_iff`), and one of them is taken; if no grid had
any, the exact value would be taken.  Either way the decimal reads back
(`Magnitude.toMagnitude_shortest`).  For a whole number the grid of whole
numbers has such a point, so no finer grid is tried and nothing is written
after the point (`Magnitude.exponent_shortest_nonneg`).
-/
import ReversePolish.Number.Decimal
import ReversePolish.Proofs.Rounding

namespace ReversePolish

theorem cast_tenTo (n : ℕ) : (tenTo n : ℚ) = 10 ^ n := by
  have hpow : tenTo n = 10 ^ n := rfl
  rw [hpow, Nat.cast_pow, Nat.cast_ofNat]

theorem tenTo_pos (n : ℕ) : 0 < tenTo n := Nat.pow_pos (by decide)

namespace Decimal

open Magnitude

/-! ### Values -/

/-- The exact value of a decimal. -/
def value (d : Decimal) : ℚ := d.digits * 10 ^ d.exponent

theorem value_ofNat (digits e : ℕ) : value ⟨digits, .ofNat e⟩ = digits * tenTo e := by
  rw [value, cast_tenTo]
  rfl

theorem value_negSucc (digits e : ℕ) :
    value ⟨digits, .negSucc e⟩ = digits / tenTo (e + 1) := by
  rw [value, cast_tenTo, zpow_negSucc, div_eq_mul_inv]

/-! ### Reading -/

/-- Three binary places are less than one decimal place. -/
theorem two_pow_le (n : ℕ) : (2 : ℚ) ^ (3 * n) ≤ 10 ^ n := by
  rw [pow_mul]
  exact pow_le_pow_left₀ (by norm_num) (by norm_num) n

theorem overflowBound_le {d : Decimal} (hdigits : d.digits ≠ 0) (hexponent : 400 < d.exponent) :
    overflowBound ≤ d.value := by
  have hone : (1 : ℚ) ≤ d.digits := by exact_mod_cast Nat.one_le_iff_ne_zero.mpr hdigits
  have hpow : (10 : ℚ) ^ (400 : ℤ) ≤ 10 ^ d.exponent :=
    zpow_le_zpow_right₀ (by norm_num) hexponent.le
  calc overflowBound
      ≤ 2 ^ 1024 := sub_le_self _ (by positivity)
    _ ≤ 2 ^ (3 * 400) := pow_le_pow_right₀ (by norm_num) (by norm_num)
    _ ≤ 10 ^ 400 := two_pow_le 400
    _ ≤ 10 ^ d.exponent := hpow
    _ ≤ d.value := le_mul_of_one_le_left (by positivity) hone

/-- Half a unit is more than the four hundredth decimal place. -/
theorem two_mul_unitsPerOne_le : 2 * (unitsPerOne : ℚ) ≤ 10 ^ (400 : ℤ) :=
  calc 2 * (unitsPerOne : ℚ)
      = 2 ^ (1074 + 1) := by rw [cast_unitsPerOne, pow_succ' (2 : ℚ) 1074]
    _ ≤ 2 ^ (3 * 400) := pow_le_pow_right₀ (by norm_num) (by norm_num)
    _ ≤ 10 ^ (400 : ℤ) := two_pow_le 400

section Small

variable {d : Decimal}

/-- There are at most as many decimal as binary digits. -/
theorem value_mul_le_one (hexponent : d.exponent + (d.digits.log2 + 1) < -400) :
    d.value * 10 ^ (400 : ℤ) ≤ 1 := by
  have hdigits : (d.digits : ℚ) ≤ 10 ^ (d.digits.log2 + 1 : ℤ) := by
    have hlog : (d.digits : ℚ) ≤ 2 ^ (d.digits.log2 + 1) := by
      exact_mod_cast (Nat.lt_log2_self (n := d.digits)).le
    rw [← Nat.cast_add_one, zpow_natCast]
    exact hlog.trans (pow_le_pow_left₀ (by norm_num) (by norm_num) _)
  calc d.value * 10 ^ (400 : ℤ)
      = d.digits * 10 ^ (d.exponent + 400) := by
        rw [value, mul_assoc, zpow_add₀ (by norm_num)]
    _ ≤ 10 ^ (d.digits.log2 + 1 : ℤ) * 10 ^ (d.exponent + 400) :=
        mul_le_mul_of_nonneg_right hdigits (by positivity)
    _ = 10 ^ (d.digits.log2 + 1 + (d.exponent + 400)) := (zpow_add₀ (by norm_num) _ _).symm
    _ ≤ 10 ^ (0 : ℤ) := zpow_le_zpow_right₀ (by norm_num) (by omega)
    _ = 1 := zpow_zero 10

/-- A decimal with so many zeros after the point is nearer to zero than to
anything else. -/
theorem between_zero (hexponent : d.exponent + (d.digits.log2 + 1) < -400) :
    Between 0 (d.value * unitsPerOne) := by
  have hvalue := value_mul_le_one hexponent
  have hnonneg : 0 ≤ d.value := by
    unfold value
    positivity
  have hhalf : Magnitude.midpoint 0 = 1 / 2 := by
    norm_num [Magnitude.midpoint, unitsAt, binade]
  have hscaled := mul_le_mul_of_nonneg_left two_mul_unitsPerOne_le hnonneg
  generalize (10 : ℚ) ^ (400 : ℤ) = large at hvalue hscaled
  rw [between_zero_iff, hhalf]
  linarith

end Small

/-- **Reading is correct rounding** of the exact value. -/
theorem rounds_toMagnitude (d : Decimal) : Rounds d.value d.toMagnitude := by
  have hpos := unitsPerOne_pos
  unfold toMagnitude
  split_ifs with hzero hlarge hsmall
  · have hvalue : d.value = Magnitude.zero.value := by
      rw [value, hzero, Nat.cast_zero, zero_mul]
      exact (zero_div _).symm
    rw [hvalue]
    exact rounds_value rfl
  · exact rounds_infinity (overflowBound_le hzero hlarge)
  · exact (between_zero hsmall).rounds rfl
  · obtain ⟨digits, exponent⟩ := d
    cases exponent with
    | ofNat e =>
      have hrounds := rounds_nearest (digits * tenTo e * unitsPerOne) Nat.one_pos
      rw [value_ofNat]
      simpa [hpos.ne'] using hrounds
    | negSucc e =>
      have hrounds := rounds_nearest (digits * unitsPerOne) (tenTo_pos (e + 1))
      have hratio : ((digits * unitsPerOne : ℕ) : ℚ) / tenTo (e + 1) / unitsPerOne =
          digits / tenTo (e + 1) := by
        push_cast
        field_simp
      rw [value_negSucc, ← hratio]
      exact hrounds

/-- A decimal is read as the magnitude that its value is rounded to. -/
theorem toMagnitude_eq_iff {d : Decimal} {m : Magnitude} : d.toMagnitude = m ↔ Rounds d.value m :=
  ⟨fun h => h ▸ rounds_toMagnitude d, fun h => (rounds_toMagnitude d).unique h⟩

/-! ### Normal form -/

theorem value_trim (d : Decimal) : d.trim.value = d.value := by
  fun_induction trim d with
  | case1 d hzero => simp [value, hzero]
  | case2 d hzero htens ih =>
    have hdigits : (d.digits : ℚ) = (d.digits / 10 : ℕ) * 10 := by
      exact_mod_cast (Nat.div_mul_cancel (Nat.dvd_of_mod_eq_zero htens)).symm
    rw [ih, value, value, zpow_add_one₀ (by norm_num), hdigits]
    ring
  | case3 d hzero htens => rfl

/-- The digits of a trimmed decimal do not end in a zero, except for zero
itself. -/
theorem trim_normal (d : Decimal) : d.trim = ⟨0, 0⟩ ∨ d.trim.digits % 10 ≠ 0 := by
  fun_induction trim d with
  | case1 d hzero => exact Or.inl rfl
  | case2 d hzero htens ih => exact ih
  | case3 d hzero htens => exact Or.inr htens

/-- In normal form a whole number has no digits after the point. -/
theorem exponent_trim_nonneg {d : Decimal} {n : ℕ} (h : d.value = n) : 0 ≤ d.trim.exponent := by
  rcases d.trim_normal with hzero | hdigits
  · rw [hzero]
  · rw [← value_trim] at h
    generalize d.trim = t at h hdigits
    obtain ⟨digits, exponent⟩ := t
    cases exponent with
    | ofNat e => exact Int.natCast_nonneg e
    | negSucc e =>
      have hpos : (0 : ℚ) < tenTo (e + 1) := by exact_mod_cast tenTo_pos (e + 1)
      rw [value_negSucc, div_eq_iff hpos.ne'] at h
      have hproduct : digits = n * tenTo (e + 1) := by exact_mod_cast h
      have htens : tenTo (e + 1) = tenTo e * 10 := rfl
      refine absurd ?_ hdigits
      rw [hproduct, htens, ← mul_assoc, Nat.mul_mod_left]

end Decimal

/-! ### Writing -/

namespace Magnitude

variable {position n : ℕ} {p : ℤ}

/-- A grid point that is read as a position: the test of `onGrid`. -/
def readsAs (position : ℕ) (p : ℤ) (n : ℕ) : Bool :=
  let scale := tenTo (-p).toNat
  let step := tenTo p.toNat * (2 * unitsPerOne)
  let low := (unitsAt (position - 1) + unitsAt position) * scale
  let high := (unitsAt position + unitsAt (position + 1)) * scale
  if position % 2 = 0 then low ≤ n * step && n * step ≤ high
  else low < n * step && n * step < high

/-- The whole number of steps below a position. -/
def stepsBelow (position : ℕ) (p : ℤ) : ℕ :=
  2 * unitsAt position * tenTo (-p).toNat / (tenTo p.toNat * (2 * unitsPerOne))

theorem onGrid_eq (position : ℕ) (p : ℤ) :
    onGrid position p =
      match readsAs position p (stepsBelow position p),
        readsAs position p (stepsBelow position p + 1) with
      | true, true => some (roundHalfEven (2 * unitsAt position * tenTo (-p).toNat)
          (tenTo p.toNat * (2 * unitsPerOne)))
      | true, false => some (stepsBelow position p)
      | false, true => some (stepsBelow position p + 1)
      | false, false => none := rfl

/-- What is taken from a grid is read as the position. -/
theorem readsAs_of_onGrid (h : onGrid position p = some n) : readsAs position p n = true := by
  rw [onGrid_eq] at h
  obtain ⟨hfloor, hceil⟩ := roundHalfEven_range (2 * unitsAt position * tenTo (-p).toNat)
    (tenTo p.toNat * (2 * unitsPerOne))
  rw [← stepsBelow] at hfloor hceil
  cases hbelow : readsAs position p (stepsBelow position p) with
  | false =>
    cases habove : readsAs position p (stepsBelow position p + 1) with
    | false =>
      rw [hbelow, habove] at h
      cases h
    | true =>
      rw [hbelow, habove] at h
      exact Option.some.inj h ▸ habove
  | true =>
    cases habove : readsAs position p (stepsBelow position p + 1) with
    | false =>
      rw [hbelow, habove] at h
      exact Option.some.inj h ▸ hbelow
    | true =>
      rw [hbelow, habove] at h
      rcases Nat.le_and_le_add_one_iff.mp ⟨hfloor, hceil⟩ with hfloor | hceil
      · exact Option.some.inj h ▸ hfloor ▸ hbelow
      · exact Option.some.inj h ▸ hceil ▸ habove

theorem onGrid_ne_none (h : readsAs position p (stepsBelow position p) = true) :
    onGrid position p ≠ none := by
  rw [onGrid_eq, h]
  split <;> simp_all

/-- Steps of the grid in the scale of the test. -/
theorem cast_steps (n : ℕ) (p : ℤ) :
    ((n * (tenTo p.toNat * (2 * unitsPerOne)) : ℕ) : ℚ) =
      2 * (Decimal.value ⟨n, p⟩ * unitsPerOne) * tenTo (-p).toNat := by
  cases p with
  | ofNat e =>
    have hone : tenTo (-(Int.ofNat e)).toNat = 1 := by
      rw [Int.toNat_of_nonpos (by simp)]
      rfl
    have hstep : tenTo (Int.ofNat e).toNat = tenTo e := rfl
    rw [Decimal.value_ofNat, hone, hstep]
    push_cast
    ring
  | negSucc e =>
    have hpos : (0 : ℚ) < tenTo (e + 1) := by exact_mod_cast tenTo_pos (e + 1)
    have hone : tenTo (Int.negSucc e).toNat = 1 := rfl
    have hscale : tenTo (-(Int.negSucc e)).toNat = tenTo (e + 1) := rfl
    rw [Decimal.value_negSucc, hone, hscale]
    push_cast
    field_simp

/-- The points of a grid that are read as a position are those between the
midpoints around it. -/
theorem readsAs_iff :
    readsAs position p n = true ↔ Between position (Decimal.value ⟨n, p⟩ * unitsPerOne) := by
  have hpos : (0 : ℚ) < tenTo (-p).toNat := by exact_mod_cast tenTo_pos _
  have hsteps := cast_steps n p
  unfold readsAs
  dsimp only
  generalize tenTo (-p).toNat = scale, n * (tenTo p.toNat * (2 * unitsPerOne)) = steps,
    Decimal.value ⟨n, p⟩ * unitsPerOne = x at hpos hsteps
  have hlow (q : ℕ) : (unitsAt q + unitsAt (q + 1)) * scale ≤ steps ↔ midpoint q ≤ x := by
    rw [← Nat.cast_le (α := ℚ), hsteps, Nat.cast_mul, mul_le_mul_iff_left₀ hpos, midpoint,
      div_le_iff₀' two_pos, Nat.cast_add]
  have hhigh (q : ℕ) : steps ≤ (unitsAt q + unitsAt (q + 1)) * scale ↔ x ≤ midpoint q := by
    rw [← Nat.cast_le (α := ℚ), hsteps, Nat.cast_mul, mul_le_mul_iff_left₀ hpos, midpoint,
      le_div_iff₀' two_pos, Nat.cast_add]
  cases position with
  | zero =>
    rw [between_zero_iff, ← hhigh 0]
    simp [unitsAt, binade]
  | succ q =>
    rw [between_succ_iff, Nat.add_sub_cancel]
    split_ifs with heven
    · simp only [Bool.and_eq_true, decide_eq_true_eq]
      rw [past_iff_of_odd (by omega), past_iff_of_even heven, not_lt, hlow, hhigh]
    · simp only [Bool.and_eq_true, decide_eq_true_eq]
      rw [past_iff_of_even (by omega), past_iff_of_odd (by omega), ← not_le, ← not_le, hlow,
        hhigh, not_le]

/-! ### The shortest decimal -/

/-- A number of `k` binary places has `k` decimal places. -/
theorem value_binaryPlaces (n : ℕ) {k : ℕ} {e : ℤ} (he : e = -(k : ℤ)) :
    Decimal.value ⟨n * Nat.pow 5 k, e⟩ = n / 2 ^ k := by
  have hfactors : (10 : ℚ) = 5 * 2 := by norm_num
  have hpow : Nat.pow 5 k = 5 ^ k := rfl
  rw [Decimal.value, he, hpow, zpow_neg, zpow_natCast, hfactors, mul_pow]
  push_cast
  field_simp

theorem value_exactDecimal (m : Magnitude) : (exactDecimal m.position).value = m.value := by
  rw [value, units, cast_unitsPerOne]
  apply value_binaryPlaces
  rfl

/-- A search through the numbers below `n` finds the first one. -/
theorem exists_first_of_findSome? {α : Type} {f : ℕ → Option α} {a : α} {n : ℕ}
    (h : (List.range n).findSome? f = some a) : ∃ i, f i = some a ∧ ∀ j < i, f j = none := by
  induction n with
  | zero => cases h
  | succ n ih =>
    rw [List.range_succ, List.findSome?_append] at h
    cases hbefore : (List.range n).findSome? f with
    | some b =>
      rw [hbefore] at h
      exact ih (hbefore.trans h)
    | none =>
      rw [hbefore] at h
      refine ⟨n, by simpa using h, fun j hj => ?_⟩
      exact List.findSome?_eq_none_iff.mp hbefore j (List.mem_range.mpr hj)

/-- The shortest decimal is taken from the first grid that has one, or is exact
if none has. -/
theorem shortest_cases (m : Magnitude) :
    (∃ (i digits : ℕ), onGrid m.position (leadingExponent m.position - i) = some digits ∧
      (∀ j < i, onGrid m.position (leadingExponent m.position - (j : ℕ)) = none) ∧
      m.shortest = Decimal.trim ⟨digits, leadingExponent m.position - i⟩) ∨
    m.shortest = (exactDecimal m.position).trim := by
  unfold shortest
  dsimp only
  cases hfound : (List.range 20).findSome? fun (i : ℕ) =>
      (onGrid m.position (leadingExponent m.position - i)).map fun digits =>
        Decimal.mk digits (leadingExponent m.position - i) with
  | none => exact Or.inr rfl
  | some d =>
    obtain ⟨i, hi, hbefore⟩ := exists_first_of_findSome? hfound
    obtain ⟨digits, hgrid, rfl⟩ := Option.map_eq_some_iff.mp hi
    exact Or.inl ⟨i, digits, hgrid, fun j hj => Option.map_eq_none_iff.mp (hbefore j hj), rfl⟩

/-- **Writing reads back.** -/
theorem toMagnitude_shortest {m : Magnitude} (hfinite : m.isInfinite = false) :
    m.shortest.toMagnitude = m := by
  rw [Decimal.toMagnitude_eq_iff]
  rcases m.shortest_cases with ⟨i, digits, hgrid, -, hshortest⟩ | hexact
  · rw [hshortest, Decimal.value_trim]
    exact (readsAs_iff.mp (readsAs_of_onGrid hgrid)).rounds hfinite
  · rw [hexact, Decimal.value_trim, value_exactDecimal]
    exact rounds_value hfinite

section Whole

variable {m : Magnitude}

theorem whole_mul_unitsPerOne (hwhole : m.isWhole = true) :
    m.whole * unitsPerOne = unitsAt m.position :=
  Nat.div_mul_cancel (Nat.dvd_of_mod_eq_zero (eq_of_beq hwhole))

/-- A whole number is on the grid of whole numbers. -/
theorem onGrid_zero_ne_none (hwhole : m.isWhole = true) : onGrid m.position 0 ≠ none := by
  have hbelow : stepsBelow m.position 0 = m.whole := by
    have hone : tenTo (-(0 : ℤ)).toNat = 1 ∧ tenTo (0 : ℤ).toNat = 1 := ⟨rfl, rfl⟩
    rw [stepsBelow, hone.1, hone.2, mul_one, one_mul, Nat.mul_div_mul_left _ _ two_pos, whole,
      units]
  have hvalue : Decimal.value ⟨m.whole, 0⟩ * unitsPerOne = unitsAt m.position := by
    rw [Decimal.value, zpow_zero, mul_one, ← Nat.cast_mul, whole_mul_unitsPerOne hwhole]
  refine onGrid_ne_none (readsAs_iff.mpr ?_)
  rw [hbelow, hvalue]
  exact between_unitsAt m.position

/-- The first grid that is tried for a whole number is not finer than that of
whole numbers. -/
theorem leadingExponent_nonneg (hwhole : m.isWhole = true) (hzero : m.position ≠ 0) :
    0 ≤ leadingExponent m.position := by
  have hpos : 0 < unitsAt m.position := by
    have hless := unitsAt_strictMono (Nat.pos_of_ne_zero hzero)
    exact Nat.zero_lt_of_lt hless
  have hone : unitsPerOne ≤ unitsAt m.position :=
    Nat.le_of_dvd hpos (Dvd.intro_left m.whole (whole_mul_unitsPerOne hwhole))
  have hlog : ∀ k, 1 <<< k ≤ unitsAt m.position → k ≤ (unitsAt m.position).log2 := by
    intro k hk
    rwa [Nat.le_log2 hpos.ne', ← one_mul (2 ^ k), ← Nat.shiftLeft_eq]
  have hleading := hlog 1074 hone
  rw [leadingExponent]
  omega

/-- **A whole number has no digits after the point.**  The grid of whole numbers
has it, so no finer grid is tried. -/
theorem exponent_shortest_nonneg (hwhole : m.isWhole = true) : 0 ≤ m.shortest.exponent := by
  rcases m.shortest_cases with ⟨i, digits, hgrid, hcoarser, hshortest⟩ | hexact
  · rw [hshortest]
    by_cases hzero : m.position = 0
    · -- zero is on every grid, so it is taken from the first
      have hfirst : onGrid 0 (leadingExponent 0 - (0 : ℕ)) = some 0 := by decide +kernel
      rw [hzero] at hgrid hcoarser
      obtain rfl : i = 0 := by
        by_contra hi
        rw [hcoarser 0 (Nat.pos_of_ne_zero hi)] at hfirst
        cases hfirst
      obtain rfl : digits = 0 := Option.some.inj (hgrid.symm.trans hfirst)
      exact Decimal.exponent_trim_nonneg (n := 0) (by simp [Decimal.value])
    · have hstart := leadingExponent_nonneg hwhole hzero
      have hi : (i : ℤ) ≤ leadingExponent m.position := by
        by_contra hbeyond
        have hnone := hcoarser (leadingExponent m.position).toNat (by omega)
        rw [Int.toNat_of_nonneg hstart, sub_self] at hnone
        exact onGrid_zero_ne_none hwhole hnone
      obtain ⟨e, he⟩ := Int.eq_ofNat_of_zero_le (sub_nonneg.mpr hi)
      have hvalue : Decimal.value ⟨digits, e⟩ = (digits * tenTo e : ℕ) := by
        rw [Nat.cast_mul]
        exact Decimal.value_ofNat digits e
      rw [he]
      exact Decimal.exponent_trim_nonneg hvalue
  · have hpos := unitsPerOne_pos
    have hvalue : (exactDecimal m.position).value = m.whole := by
      rw [value_exactDecimal, value, units, ← whole_mul_unitsPerOne hwhole, Nat.cast_mul]
      field_simp
    rw [hexact]
    exact Decimal.exponent_trim_nonneg hvalue

end Whole

end Magnitude

end ReversePolish
