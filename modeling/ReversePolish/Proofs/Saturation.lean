/-
ReversePolish/Proofs/Saturation.lean

From numbers to whole numbers of a limited range.  A conversion *saturates*
(`Number.Saturates`) if it truncates toward zero and then goes to the nearer
bound.  It makes no difference if the number itself is compared with the bounds
first, although such a bound, like `2 ^ 63 - 1`, need not be a number: truncation
keeps the order and leaves integers alone, so a number beyond a bound stays beyond
it, and one between the bounds stays between them (`clamp_truncation`).

Hence the conversions to indexes, character codes and statuses keep the order of
numbers and never leave their ranges.  For each of them it is enough to know what it
makes of a sign and a magnitude (`Number.saturates_of_signed`).
-/
import ReversePolish.Proofs.Exactness

namespace ReversePolish

/-! ### Clamping -/

/-- The nearest integer between two bounds. -/
def clamp (least most n : ℤ) : ℤ := max least (min n most)

section Clamp

variable {least most : ℤ}

theorem clamp_range (h : least ≤ most) (n : ℤ) :
    least ≤ clamp least most n ∧ clamp least most n ≤ most :=
  ⟨le_max_left _ _, max_le h (min_le_right _ _)⟩

theorem clamp_mono {n k : ℤ} (h : n ≤ k) : clamp least most n ≤ clamp least most k :=
  max_le_max_left _ (min_le_min_right _ h)

/-- Comparing a rational number with the bounds first comes to the same as
truncating it first. -/
theorem clamp_truncation (h : least ≤ most) (x : ℚ) :
    clamp least most (truncation x) =
      if x ≤ least then least else if most ≤ x then most else truncation x := by
  have hleast := truncation_intCast least
  have hmost := truncation_intCast most
  unfold clamp
  split_ifs with hlow hhigh
  · have hle : truncation x ≤ least := hleast ▸ truncation_mono hlow
    omega
  · have hle : most ≤ truncation x := hmost ▸ truncation_mono hhigh
    omega
  · have hle : least ≤ truncation x := hleast ▸ truncation_mono (not_le.mp hlow).le
    have hle' : truncation x ≤ most := hmost ▸ truncation_mono (not_le.mp hhigh).le
    omega

end Clamp

namespace Number

open Magnitude (unitsPerOne)

/-! ### Whole parts -/

/-- The whole part of a number, toward zero. -/
def signedWhole : Bool → Magnitude → ℤ
  | true, m => -(m.whole : ℤ)
  | false, m => m.whole

theorem truncation_signed (s : Bool) (m : Magnitude) :
    truncation (if s then -m.value else m.value) = signedWhole s m := by
  have hwhole : truncation m.value = m.whole := by
    rw [truncation_of_nonneg m.value_nonneg, m.whole_eq_floor]
  cases s with
  | false => exact hwhole
  | true => exact (truncation_neg m.value).trans (congrArg (- ·) hwhole)

/-- A larger number has a larger whole part, or the same. -/
theorem signedWhole_mono {s t : Bool} {a b : Magnitude} (h : place s a ≤ place t b) :
    signedWhole s a ≤ signedWhole t b := by
  have hmono {m m' : Magnitude} (hle : m.position ≤ m'.position) : m.whole ≤ m'.whole :=
    Nat.div_le_div_right (Magnitude.unitsAt_strictMono.monotone hle)
  cases s with
  | false =>
    cases t with
    | false => exact Int.ofNat_le.mpr (hmono (Int.ofNat_le.mp h))
    | true =>
      -- both are zero
      simp only [place] at h
      have ha : a.whole ≤ Magnitude.zero.whole := hmono (by show a.position ≤ 0; omega)
      have hb : b.whole ≤ Magnitude.zero.whole := hmono (by show b.position ≤ 0; omega)
      have hzero : Magnitude.zero.whole = 0 := by decide +kernel
      simp only [signedWhole]
      omega
  | true =>
    cases t with
    | false =>
      simp only [signedWhole]
      omega
    | true =>
      simp only [place] at h
      have hle : b.whole ≤ a.whole := hmono (by omega)
      simp only [signedWhole]
      omega

theorem signedWhole_infinity (s : Bool) :
    signedWhole s .infinity = if s then -2 ^ 1024 else 2 ^ 1024 := by
  have hwhole : Magnitude.infinity.whole = 2 ^ 1024 :=
    Magnitude.whole_eq (by rw [Magnitude.value_infinity, Nat.cast_pow, Nat.cast_ofNat])
  cases s with
  | false => rw [signedWhole, hwhole, Nat.cast_pow]; rfl
  | true => rw [signedWhole, hwhole, Nat.cast_pow]; rfl

/-! ### Comparing first -/

/-- At most an integer, without rounding. -/
def atMost : Number → ℤ → Bool
  | nan, _ => false
  | signed s m, i => if m.isInfinite then s else signedUnits s m ≤ i * unitsPerOne

/-- At least an integer, without rounding. -/
def atLeast : Number → ℤ → Bool
  | nan, _ => false
  | signed s m, i => if m.isInfinite then !s else i * unitsPerOne ≤ signedUnits s m

/-- The bounds are compared with the number as it is, and it is truncated only if
it lies between them. -/
def comparedFirst (least most : ℤ) : Number → ℤ
  | nan => 0
  | signed s m =>
    if (signed s m).atMost least then least
    else if (signed s m).atLeast most then most
    else signedWhole s m

section Compared

variable {s : Bool} {m : Magnitude} (hfinite : m.isInfinite = false) (i : ℤ)

include hfinite

theorem atMost_iff :
    (signed s m).atMost i = true ↔ (if s then -m.value else m.value) ≤ (i : ℚ) := by
  rw [atMost, hfinite, ← cast_signedUnits, div_le_iff₀ Magnitude.unitsPerOne_pos]
  simp only [Bool.false_eq_true, if_false, decide_eq_true_iff]
  exact_mod_cast Iff.rfl

theorem atLeast_iff :
    (signed s m).atLeast i = true ↔ (i : ℚ) ≤ if s then -m.value else m.value := by
  rw [atLeast, hfinite, ← cast_signedUnits, le_div_iff₀ Magnitude.unitsPerOne_pos]
  simp only [Bool.false_eq_true, if_false, decide_eq_true_iff]
  exact_mod_cast Iff.rfl

end Compared

/-! ### Saturating conversions -/

/-- A conversion of numbers to integers that truncates toward zero and then goes to
the nearer bound. -/
structure Saturates (convert : Number → ℤ) (least most : ℤ) : Prop where
  nan : convert nan = 0
  finite : ∀ (n : Number) (x : ℚ), n.rational? = some x →
    convert n = clamp least most (truncation x)
  infinite : ∀ s, convert (signed s .infinity) = if s then least else most
  /-- The bounds may also be compared with the number itself. -/
  compared : ∀ n, convert n = n.comparedFirst least most
  range : ∀ n, least ≤ convert n ∧ convert n ≤ most
  monotone : ∀ n k : Number, n.isNaN = false → k.isNaN = false → k.less n = false →
    convert n ≤ convert k

section Bounds

variable {convert : Number → ℤ} {least most : ℤ} (hleast : -2 ^ 63 ≤ least ∧ least ≤ 0)
  (hmost : 0 ≤ most ∧ most ≤ 2 ^ 63)

include hleast hmost

/-- The whole part of an infinity is beyond both bounds. -/
theorem clamp_signedWhole_infinity (s : Bool) :
    clamp least most (signedWhole s .infinity) = if s then least else most := by
  have hfar : (2 : ℤ) ^ 63 ≤ 2 ^ 1024 := pow_le_pow_right₀ one_le_two (by decide)
  rw [signedWhole_infinity, clamp]
  -- the large power need not be computed
  generalize (2 : ℤ) ^ 1024 = far at hfar
  cases s with
  | false =>
    rw [if_neg Bool.false_ne_true, if_neg Bool.false_ne_true]
    omega
  | true =>
    rw [if_pos rfl, if_pos rfl]
    omega

theorem comparedFirst_signed (s : Bool) (m : Magnitude) :
    (signed s m).comparedFirst least most = clamp least most (signedWhole s m) := by
  rw [comparedFirst]
  cases hm : m.isInfinite with
  | true =>
    have hatMost : (signed s m).atMost least = s := by rw [atMost, if_pos hm]
    have hatLeast : (signed s m).atLeast most = !s := by rw [atLeast, if_pos hm]
    rw [hatMost, hatLeast, Magnitude.isInfinite_iff.mp hm,
      clamp_signedWhole_infinity hleast hmost]
    cases s <;> rfl
  | false =>
    rw [← truncation_signed, clamp_truncation (hleast.2.trans hmost.1)]
    simp only [atMost_iff hm, atLeast_iff hm]

/-- It is enough to clamp whole parts. -/
theorem saturates_of_signed (hnan : convert nan = 0)
    (hsigned : ∀ s m, convert (signed s m) = clamp least most (signedWhole s m)) :
    Saturates convert least most where
  nan := hnan
  finite n x hx := by
    obtain ⟨s, m, rfl, -, rfl⟩ := exists_of_rational? hx
    rw [hsigned, truncation_signed]
  infinite s := (hsigned s .infinity).trans (clamp_signedWhole_infinity hleast hmost s)
  compared n := by
    cases n with
    | nan => exact hnan
    | signed s m => rw [hsigned, comparedFirst_signed hleast hmost]
  range n := by
    cases n with
    | nan =>
      rw [hnan]
      exact ⟨hleast.2, hmost.1⟩
    | signed s m =>
      rw [hsigned]
      exact clamp_range (hleast.2.trans hmost.1) _
  monotone n k hn hk hless := by
    cases n with
    | nan => cases hn
    | signed s a =>
      cases k with
      | nan => cases hk
      | signed t b =>
        rw [less, decide_eq_false_iff_not, not_lt] at hless
        rw [hsigned, hsigned]
        exact clamp_mono (signedWhole_mono hless)

end Bounds

theorem saturates_toIndex : Saturates (fun n => n.toIndex) 0 (2 ^ 63 - 1) := by
  refine saturates_of_signed (by decide) (by decide) rfl fun s m => ?_
  cases s with
  | false =>
    simp only [toIndex, maxIndex, signedWhole, clamp]
    omega
  | true =>
    simp only [toIndex, signedWhole, clamp]
    omega

theorem saturates_toCodePoint : Saturates (fun n => n.toCodePoint) 0 (2 ^ 32 - 1) := by
  refine saturates_of_signed (by decide) (by decide) rfl fun s m => ?_
  cases s with
  | false =>
    simp only [toCodePoint, toIndex, maxIndex, signedWhole, clamp]
    omega
  | true =>
    simp only [toCodePoint, toIndex, signedWhole, clamp]
    omega

theorem saturates_toStatus : Saturates toStatus (-2 ^ 31) (2 ^ 31 - 1) := by
  refine saturates_of_signed (by decide) (by decide) rfl fun s m => ?_
  cases s with
  | false =>
    simp only [toStatus, signedWhole, clamp]
    omega
  | true =>
    simp only [toStatus, signedWhole, clamp]
    omega

end Number

end ReversePolish
