/-
ReversePolish/Proofs/Spacing.lean

Whole numbers among the magnitudes.  Up to `2 ^ 53` every natural number is a
magnitude; from there on every magnitude is even, so the odd numbers have to be
rounded.  Rounding keeps the order of numbers, but it may make them equal.

Hence what `range` gives for its places.  The numbers never decrease, and they
never leave the bounds as these are rounded.  They are half-open and strictly
increasing (`HalfOpen`) as long as the range ends at `2 ^ 53 + 1` or before.  For
steps of one this is also needed, unless the range has at most one place.
-/
import ReversePolish.Proofs.Range

namespace ReversePolish

namespace Magnitude

variable {m m' : Magnitude} {n k p : ℕ} {x y : ℚ}

/-! ### Order -/

theorem value_le_iff : m.value ≤ m'.value ↔ m.position ≤ m'.position := by
  rw [value, value, div_le_div_iff_of_pos_right unitsPerOne_pos, Nat.cast_le]
  exact unitsAt_strictMono.le_iff_le

/-- What a value has passed, every larger one has passed. -/
theorem Past.of_le (h : Past p x) (hle : x ≤ y) : Past p y := by
  rcases h with hless | ⟨rfl, hodd⟩
  · exact Or.inl (hless.trans_le hle)
  · rcases hle.eq_or_lt with rfl | hlt
    · exact Or.inr ⟨rfl, hodd⟩
    · exact Or.inl hlt

/-- Rounding keeps the order of natural numbers. -/
theorem value_ofNat_mono (h : n ≤ k) : (ofNat n).value ≤ (ofNat k).value := by
  have hunits : ((n * unitsPerOne : ℕ) : ℚ) / (1 : ℕ) ≤ (k * unitsPerOne : ℕ) / (1 : ℕ) := by
    rw [Nat.cast_one, div_one, div_one, Nat.cast_le]
    exact Nat.mul_le_mul_right _ h
  rw [value_le_iff]
  apply min_le_min_right
  apply le_of_forall_lt
  intro p hp
  rw [lt_nearestPosition_iff _ Nat.one_pos] at hp ⊢
  exact hp.of_le hunits

/-! ### Exact numbers -/

/-- A natural number that is the value of a magnitude is rounded to it. -/
theorem ofNat_eq (hfinite : m.isInfinite = false) (hvalue : m.value = n) : ofNat n = m := by
  have hrounds := rounds_value hfinite
  rw [hvalue] at hrounds
  exact (rounds_ofNat n).unique hrounds

theorem value_infinity : infinity.value = 2 ^ 1024 := by
  have hunits : unitsAt infinity.position = binade * 2 ^ 2046 :=
    unitsAt_grid (s := 2046) (r := binade) (Or.inr le_rfl) (by decide)
  have hbinade : (binade : ℚ) = 2 ^ 52 := by norm_num [binade]
  rw [value, units, hunits, cast_unitsPerOne, Nat.cast_mul, Nat.cast_pow, Nat.cast_ofNat, hbinade,
    div_eq_iff (by positivity), ← pow_add, ← pow_add]

theorem isFinite_of_value (h : m.value < 2 ^ 1024) : m.isInfinite = false := by
  by_contra hinfinite
  have hposition : m.position = infinity.position :=
    eq_of_beq (Bool.eq_true_of_not_eq_false hinfinite)
  rw [eq_of_position hposition, value_infinity] at h
  exact lt_irrefl _ h

theorem isFinite_ofNat (h : n < 2 ^ 63) : (ofNat n).isInfinite = false := by
  rw [← Bool.not_eq_true, (rounds_ofNat n).overflow, not_le, overflowBound]
  have hsplit : (2 : ℚ) ^ 1024 = 2 ^ 54 * 2 ^ 970 := by rw [← pow_add]
  have hn : (n : ℚ) < 2 ^ 970 := by
    calc (n : ℚ) < 2 ^ 63 := by exact_mod_cast h
      _ ≤ 2 ^ 970 := pow_le_pow_right₀ one_le_two (by decide)
  rw [hsplit]
  generalize (2 : ℚ) ^ 970 = a at hn
  have hpos : (0 : ℚ) ≤ n := Nat.cast_nonneg n
  linarith

/-- A magnitude by its step and the number of steps. -/
theorem exists_steps (m : Magnitude) :
    ∃ s r, m.units = r * 2 ^ s ∧ r < 2 * binade ∧ (m.isInfinite = false → s ≤ 2045) := by
  obtain ⟨s, r, hposition, hlow, hhigh⟩ := exists_grid m.position
  refine ⟨s, r, ?_, hhigh, fun hfinite => ?_⟩
  · rw [units, hposition, unitsAt_grid hlow hhigh.le]
  · rw [isInfinite_eq_false_iff, hposition] at hfinite
    simp only [binade] at hfinite hlow
    omega

/-- Steps of `2 ^ s` units, no more of them than two binades have positions, make
a magnitude. -/
theorem exists_units {s r : ℕ} (hr : r ≤ 2 * binade) (hs : s ≤ 2045) :
    ∃ m : Magnitude, m.units = r * 2 ^ s := by
  have hposition : s * binade + r ≤ 0x7ff0000000000000 := by
    calc s * binade + r ≤ 2045 * binade + 2 * binade :=
          Nat.add_le_add (Nat.mul_le_mul_right _ hs) hr
      _ ≤ 0x7ff0000000000000 := by decide
  by_cases hlow : s = 0 ∨ binade ≤ r
  · exact ⟨⟨s * binade + r, hposition⟩, unitsAt_grid hlow hr⟩
  · -- too few steps for this binade, but twice as many of half the size
    obtain ⟨hs', hr'⟩ := not_or.mp hlow
    obtain ⟨t, rfl⟩ := Nat.exists_eq_succ_of_ne_zero hs'
    obtain ⟨m, hm⟩ := exists_units (s := t) (r := 2 * r) (by omega) (by omega)
    exact ⟨m, by rw [hm, pow_succ]; ring⟩
termination_by s

theorem unitsPerOne_eq : unitsPerOne = 2 ^ 1074 := by
  apply Nat.cast_injective (R := ℚ)
  rw [cast_unitsPerOne, Nat.cast_pow, Nat.cast_ofNat]

/-- A value given in units. -/
theorem value_eq_of_units (h : m.units = n * 2 ^ 1074) : m.value = n := by
  rw [value, h, cast_unitsPerOne, Nat.cast_mul, Nat.cast_pow, Nat.cast_ofNat,
    mul_div_cancel_right₀ _ (by positivity)]

/-- **Up to `2 ^ 53` natural numbers are exact.** -/
theorem value_ofNat_of_le (h : n ≤ 2 ^ 53) : (ofNat n).value = n := by
  obtain ⟨m, hm⟩ := exists_units (s := 1074) (h.trans (by decide)) (by decide)
  have hvalue := value_eq_of_units hm
  have hsmall : m.value < 2 ^ 1024 := by
    rw [hvalue]
    calc (n : ℚ) ≤ 2 ^ 53 := by exact_mod_cast h
      _ < 2 ^ 1024 := pow_lt_pow_right₀ one_lt_two (by decide)
  rw [ofNat_eq (isFinite_of_value hsmall) hvalue, hvalue]

/-- The whole part of a finite magnitude is exact. -/
theorem value_ofNat_whole (hfinite : m.isInfinite = false) : (ofNat m.whole).value = m.whole := by
  obtain ⟨s, r, hunits, hhigh, -⟩ := exists_steps m
  by_cases hs : 1074 ≤ s
  · -- there is nothing after the point
    obtain ⟨t, rfl⟩ := Nat.exists_eq_add_of_le hs
    have hwhole : m.units = m.whole * 2 ^ 1074 := by
      rw [whole, unitsPerOne_eq, hunits, pow_add, mul_left_comm, Nat.mul_div_cancel_left _ (by positivity),
        mul_comm]
    have hvalue := value_eq_of_units hwhole
    rw [ofNat_eq hfinite hvalue, hvalue]
  · have hpow : 2 ^ s ≤ 2 ^ 1074 := pow_le_pow_right₀ one_le_two (by omega)
    apply value_ofNat_of_le
    rw [whole, hunits, unitsPerOne_eq]
    apply Nat.div_le_of_le_mul
    rw [mul_comm (2 ^ 1074)]
    exact Nat.mul_le_mul (hhigh.le.trans (show 2 * binade ≤ 2 ^ 53 by decide)) hpow

/-- **From `2 ^ 53` on every magnitude is even.** -/
theorem exists_even_of_le (h : 2 ^ 53 ≤ m.value) : ∃ k : ℕ, m.value = 2 * k := by
  obtain ⟨s, r, hunits, hhigh, -⟩ := exists_steps m
  have hlarge : 2 ^ 53 * 2 ^ 1074 ≤ r * 2 ^ s := by
    rw [value, le_div_iff₀ unitsPerOne_pos, hunits] at h
    have hcast : 2 ^ 53 * unitsPerOne ≤ r * 2 ^ s := by exact_mod_cast h
    rwa [unitsPerOne_eq] at hcast
  have hs : 1075 ≤ s := by
    by_contra hless
    have hpow : 2 ^ s ≤ 2 ^ 1074 := pow_le_pow_right₀ one_le_two (by omega)
    have hr : r < 2 ^ 53 := hhigh.trans_le (by decide)
    have hlt : r * 2 ^ s < 2 ^ 53 * 2 ^ 1074 := by
      calc r * 2 ^ s ≤ r * 2 ^ 1074 := Nat.mul_le_mul_left _ hpow
        _ < 2 ^ 53 * 2 ^ 1074 := Nat.mul_lt_mul_of_pos_right hr (by positivity)
    exact absurd hlarge (not_le.mpr hlt)
  obtain ⟨t, rfl⟩ := Nat.exists_eq_add_of_le hs
  refine ⟨r * 2 ^ t, ?_⟩
  have hvalue : m.units = (2 * (r * 2 ^ t)) * 2 ^ 1074 := by
    rw [hunits, pow_add, pow_succ]
    -- the large power need not be computed
    generalize 2 ^ 1074 = one
    ring
  rw [value_eq_of_units hvalue]
  push_cast
  rfl

/-- Let two neighbours beyond `2 ^ 53` be rounded to different numbers, and the
second not be rounded up.  Then the first is rounded down by one. -/
theorem value_ofNat_add_one (hn : 2 ^ 53 ≤ n) (hsmall : n + 1 < 2 ^ 63)
    (hless : (ofNat n).value < (ofNat (n + 1)).value) (hbelow : (ofNat (n + 1)).value < n + 2) :
    (ofNat n).value + 1 = n := by
  have hnear : |(n : ℚ) - (ofNat n).value| ≤ |(n : ℚ) - (ofNat (n + 1)).value| :=
    (rounds_ofNat n).nearest (isFinite_ofNat (by omega)) _ (isFinite_ofNat hsmall)
  have hlarge : (2 : ℚ) ^ 53 ≤ n := by exact_mod_cast hn
  generalize hfirst : (ofNat n).value = a at *
  generalize hsecond : (ofNat (n + 1)).value = b at *
  -- the second is larger than `n`, or it would be nearer to `n` than the first
  have hb : (n : ℚ) < b := by
    by_contra hle
    rw [not_lt] at hle
    rw [abs_of_nonneg (by linarith), abs_of_nonneg (by linarith)] at hnear
    linarith
  obtain ⟨k, hk⟩ : ∃ k : ℕ, b = 2 * k := by
    rw [← hsecond] at hb ⊢
    exact exists_even_of_le (hlarge.trans hb.le)
  have hodd : 2 * k = n + 1 := by
    rw [hk] at hb hbelow
    have h₁ : n < 2 * k := by exact_mod_cast hb
    have h₂ : 2 * k < n + 2 := by exact_mod_cast hbelow
    omega
  have hb' : b = n + 1 := by
    rw [hk]
    exact_mod_cast hodd
  -- so `n` is odd, and at a distance of one there are even numbers only
  have ha : (n : ℚ) - 1 ≤ a := by
    rw [hb', sub_add_cancel_left, abs_neg, abs_one] at hnear
    linarith [le_abs_self ((n : ℚ) - a)]
  have hlarge' : (2 : ℚ) ^ 53 ≤ n - 1 := by
    rw [le_sub_iff_add_le]
    exact_mod_cast (show 2 ^ 53 + 1 ≤ n by omega)
  obtain ⟨j, hj⟩ : ∃ j : ℕ, a = 2 * j := by
    rw [← hfirst] at ha ⊢
    exact exists_even_of_le (hlarge'.trans ha)
  rw [hj] at ha hless ⊢
  rw [hb'] at hless
  rw [sub_le_iff_le_add] at ha
  have h₁ : n ≤ 2 * j + 1 := by exact_mod_cast ha
  have h₂ : 2 * j < n + 1 := by exact_mod_cast hless
  exact_mod_cast (show 2 * j + 1 = n by omega)

theorem value_lt_whole_add_one (m : Magnitude) : m.value < m.whole + 1 := by
  have hunits : m.units < (m.whole + 1) * unitsPerOne := by
    rw [mul_comm]
    exact Nat.lt_mul_div_succ m.units (by decide)
  rw [value, div_lt_iff₀ unitsPerOne_pos]
  exact_mod_cast hunits

end Magnitude

/-! ### Numbers as rational numbers -/

/-- The rational number that a finite number is. -/
def Number.rational? : Number → Option ℚ
  | nan => none
  | signed negative m =>
    if m.isInfinite then none else some (if negative then -m.value else m.value)

/-- The rational number that a value is, if it is a finite number. -/
def Value.rational? : Value → Option ℚ
  | number n => n.rational?
  | _ => none

theorem Value.rational?_ofNat {n : ℕ} (h : n < 2 ^ 63) :
    (Value.ofNat n).rational? = some (Magnitude.ofNat n).value := by
  show (if (Magnitude.ofNat n).isInfinite then none else some (Magnitude.ofNat n).value) = _
  rw [Magnitude.isFinite_ofNat h]
  rfl

/-- Below the largest index every index is exact. -/
theorem Number.value_ofNat_toIndex {p : Number} (h : p.toIndex < maxIndex) :
    (Magnitude.ofNat p.toIndex).value = p.toIndex := by
  have hzero : (Magnitude.ofNat 0).value = (0 : ℕ) := Magnitude.value_ofNat_of_le (Nat.zero_le _)
  match p with
  | nan => exact hzero
  | signed true m => exact hzero
  | signed false m =>
    have hwhole : (signed false m).toIndex = m.whole := by
      show min m.whole maxIndex = m.whole
      have hmin : min m.whole maxIndex < maxIndex := h
      omega
    rw [hwhole] at h ⊢
    apply Magnitude.value_ofNat_whole
    apply Magnitude.isFinite_of_value
    calc m.value < m.whole + 1 := m.value_lt_whole_add_one
      _ ≤ 2 ^ 63 := by exact_mod_cast h.trans (by decide : maxIndex < 2 ^ 63)
      _ < 2 ^ 1024 := pow_lt_pow_right₀ one_lt_two (by decide)

/-! ### Ranges -/

/-- Numbers from a start on up to an end, which is not reached, each of them less
than the next one. -/
structure HalfOpen (start stop : ℕ) (numbers : List ℚ) : Prop where
  within : ∀ x ∈ numbers, (start : ℚ) ≤ x ∧ x < stop
  increasing : numbers.IsChain (· < ·)

namespace Operator

/-- The numbers of a range, each of them rounded. -/
def rangeNumbers (start stop step : ℕ) : List ℚ :=
  (List.range (rangeLength start stop step)).map fun i => (Magnitude.ofNat (start + i * step)).value

variable {start stop step : ℕ} {x : ℚ}

theorem mem_rangeNumbers (hstep : 0 < step) :
    x ∈ rangeNumbers start stop step ↔
      ∃ i, start + i * step < stop ∧ (Magnitude.ofNat (start + i * step)).value = x := by
  simp only [rangeNumbers, List.mem_map, List.mem_range, lt_rangeLength_iff hstep]

theorem isChain_rangeNumbers (hstep : 0 < step) {r : ℚ → ℚ → Prop} :
    (rangeNumbers start stop step).IsChain r ↔
      ∀ i, start + (i + 1) * step < stop →
        r (Magnitude.ofNat (start + i * step)).value
          (Magnitude.ofNat (start + (i + 1) * step)).value := by
  rw [rangeNumbers, List.isChain_map, List.isChain_range]
  simp only [← lt_rangeLength_iff hstep, Nat.lt_sub_iff_add_lt, Nat.succ_eq_add_one]

/-- The numbers of a range stay between its ends, as these are rounded. -/
theorem bounds_of_mem_rangeNumbers (hstep : 0 < step) (hx : x ∈ rangeNumbers start stop step) :
    (Magnitude.ofNat start).value ≤ x ∧ x ≤ (Magnitude.ofNat stop).value := by
  obtain ⟨i, hi, rfl⟩ := (mem_rangeNumbers hstep).mp hx
  exact ⟨Magnitude.value_ofNat_mono (Nat.le_add_right _ _), Magnitude.value_ofNat_mono hi.le⟩

theorem rangeNumbers_rising (hstep : 0 < step) :
    (rangeNumbers start stop step).IsChain (· ≤ ·) := by
  rw [isChain_rangeNumbers hstep]
  intro i _
  apply Magnitude.value_ofNat_mono
  rw [Nat.succ_mul]
  omega

/-- Numbers that are not rounded are in the order of their places. -/
theorem halfOpen_of_stop_le (hstep : 0 < step) (hstop : stop ≤ 2 ^ 53 + 1) :
    HalfOpen start stop (rangeNumbers start stop step) where
  within := by
    intro x hx
    obtain ⟨i, hi, rfl⟩ := (mem_rangeNumbers hstep).mp hx
    rw [Magnitude.value_ofNat_of_le (by omega)]
    exact ⟨Nat.cast_le.mpr (Nat.le_add_right _ _), Nat.cast_lt.mpr hi⟩
  increasing := by
    rw [isChain_rangeNumbers hstep]
    intro i hi
    have hless : start + i * step < start + (i + 1) * step := by
      rw [Nat.succ_mul]
      omega
    rw [Magnitude.value_ofNat_of_le (by omega), Magnitude.value_ofNat_of_le (by omega)]
    exact Nat.cast_lt.mpr hless

/-- A range of one place. -/
theorem halfOpen_of_stop_le_succ (hstep : 0 < step) (hstop : stop ≤ start + 1)
    (hstart : start < stop → (Magnitude.ofNat start).value = start) :
    HalfOpen start stop (rangeNumbers start stop step) where
  within := by
    intro x hx
    obtain ⟨i, hi, rfl⟩ := (mem_rangeNumbers hstep).mp hx
    have hplace : start + i * step = start := by omega
    rw [hplace] at hi ⊢
    rw [hstart hi]
    exact ⟨le_rfl, Nat.cast_lt.mpr hi⟩
  increasing := by
    rw [isChain_rangeNumbers hstep]
    intro i hi
    rw [Nat.succ_mul] at hi
    omega

/-- By steps of one, two places beyond `2 ^ 53` are too near to each other: one of
them is rounded to its neighbour, or out of the range. -/
theorem stop_le_of_halfOpen (h : HalfOpen start stop (rangeNumbers start stop 1))
    (htwo : start + 1 < stop) (hsmall : stop < 2 ^ 63) : stop ≤ 2 ^ 53 + 1 := by
  by_contra hlarge
  have hplace : ∀ k, start ≤ k → start + (k - start) * 1 = k := by omega
  have hwithin : ∀ k, start ≤ k → k < stop →
      (start : ℚ) ≤ (Magnitude.ofNat k).value ∧ (Magnitude.ofNat k).value < stop := by
    intro k hk hlt
    refine h.within _ ((mem_rangeNumbers one_pos).mpr ⟨k - start, ?_⟩)
    rw [hplace k hk]
    exact ⟨hlt, rfl⟩
  have hincreasing : ∀ k, start ≤ k → k + 1 < stop →
      (Magnitude.ofNat k).value < (Magnitude.ofNat (k + 1)).value := by
    intro k hk hlt
    have hchain := (isChain_rangeNumbers one_pos).mp h.increasing (k - start)
    rw [Nat.succ_mul, ← Nat.add_assoc, hplace k hk] at hchain
    exact hchain hlt
  obtain ⟨n, rfl⟩ : ∃ n, stop = n + 2 := ⟨stop - 2, by omega⟩
  have hbelow := (hwithin (n + 1) (by omega) (by omega)).2
  have hdown : (Magnitude.ofNat n).value + 1 = n := by
    refine Magnitude.value_ofNat_add_one (by omega) (by omega) (hincreasing n (by omega) ?_) ?_
    · omega
    · push_cast at hbelow
      exact hbelow
  -- the place before is in the range, and is rounded to the same number
  obtain ⟨k, rfl⟩ : ∃ k, n = k + 1 := ⟨n - 1, by omega⟩
  have hk : (Magnitude.ofNat (k + 1)).value = k := by
    push_cast at hdown
    linarith
  have hstart : start ≤ k := by
    have hge := (hwithin (k + 1) (by omega) (by omega)).1
    rw [hk] at hge
    exact_mod_cast hge
  have hsame : Magnitude.ofNat k = Magnitude.ofNat (k + 1) :=
    Magnitude.ofNat_eq (Magnitude.isFinite_ofNat (by omega)) hk
  have hless := hincreasing k hstart (by omega)
  rw [hsame] at hless
  exact lt_irrefl _ hless

end Operator

theorem Number.toIndex_le (p : Number) : p.toIndex ≤ maxIndex := by
  match p with
  | nan => exact Nat.zero_le _
  | signed true m => exact Nat.zero_le _
  | signed false m => exact min_le_right _ _

section Command

open Routine

variable {x y z : Value} {p q r : Number}

/-- A range that is not refused, with the numbers that its elements are. -/
theorem exchanges_range (hx : x.toNumber = .ok p) (hy : y.toNumber = .ok q)
    (hz : z.toNumber = .ok r) (hpos : 0 < r.toIndex)
    (hfits : Operator.rangeLength p.toIndex q.toIndex r.toIndex ≤ maxLength)
    (evaluate : String → Routine Unit) (bound : Nat) :
    ∃ items : List Value, Exchanges (execute evaluate bound "range") [x, y, z] [.list items] ∧
      items.map Value.rational? =
        (Operator.rangeNumbers p.toIndex q.toIndex r.toIndex).map some := by
  refine ⟨(List.range (Operator.rangeLength p.toIndex q.toIndex r.toIndex)).map fun i =>
    .ofNat (p.toIndex + i * r.toIndex), .execute (c := .operator .range) (.of_run fun m => ?_), ?_⟩
  · exact (runOn_runRange hx hy hz m).trans
      ((if_neg hpos.ne').trans (if_neg (Nat.not_lt.mpr hfits)))
  · rw [Operator.rangeNumbers, List.map_map, List.map_map]
    apply List.map_congr_left
    intro i hi
    have hplace := (Operator.lt_rangeLength_iff hpos).mp (List.mem_range.mp hi)
    have hlast : q.toIndex < 2 ^ 63 := q.toIndex_le.trans_lt (by decide)
    rw [Function.comp_apply, Function.comp_apply, Value.rational?_ofNat (hplace.trans hlast)]

/-- **What rounding leaves of a range.**  Let `range` not refuse its operands.
Then its numbers never decrease; the first bound is kept, and so is the second
as it is rounded.  Up to `2 ^ 53 + 1` the range is half-open and strictly
increasing.  Beyond that, by steps of one, it is not, unless it has at most one
place. -/
theorem execute_range_order (hx : x.toNumber = .ok p) (hy : y.toNumber = .ok q)
    (hz : z.toNumber = .ok r) {m m' : Machine}
    (hends : runOn Operator.range.run (m.holding [x, y, z]) = (.ok (), m'))
    (evaluate : String → Routine Unit) (bound : Nat) :
    let start := p.toIndex
    let stop := q.toIndex
    ∃ (items : List Value) (numbers : List ℚ),
      Exchanges (execute evaluate bound "range") [x, y, z] [.list items] ∧
      items.map Value.rational? = numbers.map some ∧
      (∀ n ∈ numbers, (start : ℚ) ≤ n ∧ n ≤ (Magnitude.ofNat stop).value) ∧
      numbers.IsChain (· ≤ ·) ∧
      (stop ≤ 2 ^ 53 + 1 → HalfOpen start stop numbers) ∧
      (r.toIndex = 1 →
        (HalfOpen start stop numbers ↔ stop ≤ 2 ^ 53 + 1 ∨ stop ≤ start + 1)) := by
  intro start stop
  have hrun := (runOn_runRange hx hy hz m).symm.trans hends
  have hpos : 0 < r.toIndex := by
    by_contra hzero
    rw [if_pos (Nat.eq_zero_of_not_pos hzero)] at hrun
    cases hrun
  rw [if_neg hpos.ne'] at hrun
  have hfits : Operator.rangeLength start stop r.toIndex ≤ maxLength := by
    by_contra hlong
    rw [if_pos (Nat.lt_of_not_le hlong)] at hrun
    cases hrun
  obtain ⟨items, hexchanges, hnumbers⟩ := exchanges_range hx hy hz hpos hfits evaluate bound
  have hlast : stop ≤ Number.maxIndex := q.toIndex_le
  have hstart : start < stop → (Magnitude.ofNat start).value = start := fun hless =>
    Number.value_ofNat_toIndex (hless.trans_le hlast)
  refine ⟨items, _, hexchanges, hnumbers, fun n hn => ?_, Operator.rangeNumbers_rising hpos,
    Operator.halfOpen_of_stop_le hpos, fun hone => ⟨fun h => ?_, ?_⟩⟩
  · obtain ⟨hlow, hhigh⟩ := Operator.bounds_of_mem_rangeNumbers hpos hn
    obtain ⟨i, hi, -⟩ := (Operator.mem_rangeNumbers hpos).mp hn
    rw [hstart (Nat.lt_of_le_of_lt (Nat.le_add_right _ _) hi)] at hlow
    exact ⟨hlow, hhigh⟩
  · rw [or_iff_not_imp_right]
    intro htwo
    rw [hone] at h
    exact Operator.stop_le_of_halfOpen h (Nat.lt_of_not_le htwo) (hlast.trans_lt (by decide))
  · rintro (hstop | hstop)
    · exact Operator.halfOpen_of_stop_le hpos hstop
    · exact Operator.halfOpen_of_stop_le_succ hpos hstop hstart

/-- On both sides of the limit: two places up to `2 ^ 53`, and four from there on. -/
theorem execute_range_order_limit :
    let range := execute (evaluate 1) 1 "range"
    (∃ items numbers,
      Exchanges range [.ofNat (2 ^ 53 - 2), .ofNat (2 ^ 53), .ofNat 1] [.list items] ∧
      items.map Value.rational? = numbers.map some ∧
      HalfOpen (2 ^ 53 - 2) (2 ^ 53) numbers) ∧
    ∃ items numbers,
      Exchanges range [.ofNat (2 ^ 53), .ofNat (2 ^ 53 + 4), .ofNat 1] [.list items] ∧
      items.map Value.rational? = numbers.map some ∧
      ¬HalfOpen (2 ^ 53) (2 ^ 53 + 4) numbers := by
  intro range
  let m : Machine := .bare
  have hlow : (Number.ofNat (2 ^ 53 - 2)).toIndex = 2 ^ 53 - 2 := by decide +kernel
  have hmiddle : (Number.ofNat (2 ^ 53)).toIndex = 2 ^ 53 := by decide +kernel
  have hhigh : (Number.ofNat (2 ^ 53 + 4)).toIndex = 2 ^ 53 + 4 := by decide +kernel
  have hone : (Number.ofNat 1).toIndex = 1 := by decide +kernel
  have hends : runOn Operator.range.run
      (m.holding [.ofNat (2 ^ 53 - 2), .ofNat (2 ^ 53), .ofNat 1]) = (.ok (), _) :=
    runOn_eq_ok (by decide +kernel)
  have hends' : runOn Operator.range.run
      (m.holding [.ofNat (2 ^ 53), .ofNat (2 ^ 53 + 4), .ofNat 1]) = (.ok (), _) :=
    runOn_eq_ok (by decide +kernel)
  obtain ⟨items, numbers, hexchanges, hnumbers, -, -, hopen, -⟩ :=
    execute_range_order rfl rfl rfl hends (evaluate 1) 1
  obtain ⟨items', numbers', hexchanges', hnumbers', -, -, -, hiff⟩ :=
    execute_range_order rfl rfl rfl hends' (evaluate 1) 1
  rw [hlow, hmiddle] at hopen
  rw [hmiddle, hhigh, hone] at hiff
  refine ⟨⟨items, numbers, hexchanges, hnumbers, hopen (by decide)⟩, items', numbers', hexchanges',
    hnumbers', ?_⟩
  rw [hiff rfl]
  decide

/-- A range need not be half-open, nor strictly increasing: of four places from
`2 ^ 53` on the second is rounded down to the first, and the last one up to the
end. -/
theorem range_not_halfOpen :
    ∃ items : List Value,
      Exchanges (execute (evaluate 1) 1 "range") [.ofNat (2 ^ 53), .ofNat (2 ^ 53 + 4), .ofNat 1]
        [.list items] ∧
      items.map Value.rational? =
        [some (2 ^ 53), some (2 ^ 53), some (2 ^ 53 + 2), some (2 ^ 53 + 4)] ∧
      ¬HalfOpen (Number.ofNat (2 ^ 53)).toIndex (Number.ofNat (2 ^ 53 + 4)).toIndex
        [2 ^ 53, 2 ^ 53, 2 ^ 53 + 2, 2 ^ 53 + 4] := by
  have hmiddle : (Number.ofNat (2 ^ 53)).toIndex = 2 ^ 53 := by decide +kernel
  have hhigh : (Number.ofNat (2 ^ 53 + 4)).toIndex = 2 ^ 53 + 4 := by decide +kernel
  have hone : (Number.ofNat 1).toIndex = 1 := by decide +kernel
  have hfirst : (Magnitude.ofNat (2 ^ 53)).value = 2 ^ 53 := by
    rw [Magnitude.value_ofNat_of_le le_rfl]
    norm_num
  have hdown : Magnitude.ofNat (2 ^ 53 + 1) = Magnitude.ofNat (2 ^ 53) := by decide +kernel
  have hup : Magnitude.ofNat (2 ^ 53 + 3) = Magnitude.ofNat (2 ^ 53 + 4) := by decide +kernel
  have htwo : (Magnitude.ofNat (2 ^ 53 + 2)).value = (2 ^ 53 + 2 : ℕ) :=
    Magnitude.value_eq_of_units (by decide +kernel)
  have hfour : (Magnitude.ofNat (2 ^ 53 + 4)).value = (2 ^ 53 + 4 : ℕ) :=
    Magnitude.value_eq_of_units (by decide +kernel)
  have hnumbers : Operator.rangeNumbers (2 ^ 53) (2 ^ 53 + 4) 1 =
      [2 ^ 53, 2 ^ 53, 2 ^ 53 + 2, 2 ^ 53 + 4] := by
    have hlength : Operator.rangeLength (2 ^ 53) (2 ^ 53 + 4) 1 = 4 := by decide
    have hrange : List.range 4 = [0, 1, 2, 3] := rfl
    simp only [Operator.rangeNumbers, hlength, hrange, List.map_cons, List.map_nil,
      add_zero, mul_one, hdown, hup, hfirst, htwo, hfour]
    norm_num
  obtain ⟨items, hexchanges, hitems⟩ :=
    exchanges_range (x := .ofNat (2 ^ 53)) (y := .ofNat (2 ^ 53 + 4)) (z := .ofNat 1) rfl rfl rfl
      (by rw [hone]; decide) (by rw [hmiddle, hhigh, hone]; decide) (evaluate 1) 1
  rw [hmiddle, hhigh, hone, hnumbers] at hitems
  refine ⟨items, hexchanges, hitems, fun hopen => ?_⟩
  have hless := (List.isChain_cons_cons.mp hopen.increasing).1
  exact lt_irrefl _ hless

end Command

end ReversePolish
