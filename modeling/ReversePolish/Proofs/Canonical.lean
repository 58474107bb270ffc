/-
ReversePolish/Proofs/Canonical.lean

The text of a number is canonical: no digit in it could be left out
(`CanonicalDigits`), a whole number has no point, and the text reads back as
the number itself, sign and all (`Number.text_canonical`).  So different
numbers have different texts.

Two facts about positional notation carry this.  It spells the exact value of
the decimal (`Decimal.mantissa_positional`), which is then rounded back; and
for a trimmed decimal it has no zero to spare
(`Decimal.canonicalDigits_positional`).
-/
import ReversePolish.Proofs.Spelling

namespace ReversePolish

/-! ### Digits of natural numbers -/

theorem runValue_toDigits (n : ℕ) : runValue (Nat.toDigits 10 n) = n := by
  rw [← Numeral.digitsValue_eq]
  exact Nat.ofDigitChars_toDigits (by decide) (by decide)

theorem runValue_replicate_zero (count : ℕ) : runValue (List.replicate count '0') = 0 := by
  induction count with
  | zero => rfl
  | succ count ih =>
    rw [List.replicate_succ', runValue_append, ih]
    rfl

theorem digitChar_ne_zero {d : ℕ} (hpos : d ≠ 0) (hlt : d < 10) : d.digitChar ≠ '0' := by
  have hall : ∀ d < 10, d ≠ 0 → d.digitChar ≠ '0' := by decide
  exact hall d hlt hpos

/-- The last digit of a number. -/
theorem exists_toDigits_eq_append (n : ℕ) :
    ∃ front, Nat.toDigits 10 n = front ++ [(n % 10).digitChar] := by
  rw [Nat.toDigits_eq_if (by decide)]
  split
  · rename_i hlt
    exact ⟨[], by rw [Nat.mod_eq_of_lt hlt]; rfl⟩
  · exact ⟨_, rfl⟩

/-- The first digit of a number other than zero. -/
theorem exists_toDigits_eq_cons {n : ℕ} (hn : n ≠ 0) :
    ∃ first rest, Nat.toDigits 10 n = first :: rest ∧ first ≠ '0' := by
  induction n using Nat.strong_induction_on with
  | h n ih =>
    rw [Nat.toDigits_eq_if (by decide)]
    split
    · rename_i hlt
      exact ⟨_, [], rfl, digitChar_ne_zero hn hlt⟩
    · obtain ⟨first, rest, hdigits, hfirst⟩ := ih (n / 10) (by omega) (by omega)
      exact ⟨first, _, by rw [hdigits]; rfl, hfirst⟩

/-! ### Canonical digits -/

/-- Digits before a point: a single zero, or digits that do not start with
one. -/
inductive WholeDigits : List Char → Prop
  | zero : WholeDigits ['0']
  | nonzero {first : Char} {rest : List Char} : DigitRun (first :: rest) → first ≠ '0' →
      WholeDigits (first :: rest)

/-- Digits after a point: at least one, and no zero at the end. -/
inductive FractionDigits : List Char → Prop
  | intro {front : List Char} {last : Char} : DigitRun (front ++ [last]) → last ≠ '0' →
      FractionDigits (front ++ [last])

/-- Digits, and perhaps a point with digits after it, none of which could be
left out. -/
inductive CanonicalDigits : List Char → Prop
  | whole {digits : List Char} : WholeDigits digits → CanonicalDigits digits
  | point {digits fraction : List Char} : WholeDigits digits → FractionDigits fraction →
      CanonicalDigits (digits ++ '.' :: fraction)

namespace Decimal

/-! ### Positional notation -/

theorem runValue_padded (digits e : ℕ) : runValue (padded digits e) = digits := by
  rw [padded, runValue_append, runValue_replicate_zero, runValue_toDigits, zero_mul, zero_add]

/-- Positional notation spells the exact value. -/
theorem mantissa_positional (d : Decimal) : Numeral.Mantissa d.positional d.value := by
  obtain ⟨digits, exponent⟩ := d
  cases exponent with
  | ofNat e =>
    have hrun := (digitRun_toDigits digits).append (digitRun_replicate_zero e)
    have hvalue : value ⟨digits, .ofNat e⟩ =
        runValue (Nat.toDigits 10 digits ++ List.replicate e '0') := by
      rw [value_ofNat, runValue_append, runValue_toDigits, runValue_replicate_zero,
        List.length_replicate, cast_tenTo]
      push_cast
      ring
    rw [hvalue]
    exact .whole hrun (List.append_ne_nil_of_left_ne_nil Nat.toDigits_ne_nil _)
  | negSucc e =>
    obtain ⟨whole, fraction, hpositional, hpadded, hlength, hne⟩ :=
      exists_positional_negSucc digits e
    have hrun : DigitRun (whole ++ fraction) := hpadded ▸ digitRun_padded digits e
    have hsum : runValue whole * 10 ^ (e + 1) + runValue fraction = digits := by
      rw [← hlength, ← runValue_append, hpadded, runValue_padded]
    have hvalue : value ⟨digits, .negSucc e⟩ =
        runValue whole + runValue fraction / 10 ^ fraction.length := by
      rw [value_negSucc, cast_tenTo, hlength, ← hsum]
      push_cast
      field_simp
    rw [hpositional, hvalue]
    exact .point hrun.of_append.1 hne hrun.of_append.2

section Padded

variable {digits e : ℕ} {whole fraction : List Char}

/-- Zeros are put in front only to have one digit before the point. -/
theorem wholeDigits_of_padded (hdigits : digits ≠ 0) (hpadded : whole ++ fraction = padded digits e)
    (hlength : fraction.length = e + 1) (hwhole : whole ≠ []) : WholeDigits whole := by
  obtain ⟨c, whole, rfl⟩ := List.exists_cons_of_ne_nil hwhole
  obtain ⟨first, rest, hcons, hfirst⟩ := exists_toDigits_eq_cons hdigits
  rw [padded] at hpadded
  cases hcount : e + 2 - (Nat.toDigits 10 digits).length with
  | zero =>
    rw [hcount, List.replicate_zero, List.nil_append] at hpadded
    have hrun : DigitRun (c :: whole ++ fraction) := hpadded ▸ digitRun_toDigits digits
    rw [hcons] at hpadded
    obtain rfl : c = first := (List.cons.inj hpadded).1
    exact .nonzero hrun.of_append.1 hfirst
  | succ count =>
    have htotal := congrArg List.length hpadded
    simp only [List.length_append, List.length_cons, List.length_replicate] at htotal
    obtain rfl : whole = [] := List.eq_nil_of_length_eq_zero (by omega)
    rw [hcount, List.replicate_succ] at hpadded
    obtain rfl : c = '0' := (List.cons.inj hpadded).1
    exact .zero

/-- The digits after the point end where all digits end. -/
theorem fractionDigits_of_padded (hdigits : digits % 10 ≠ 0)
    (hpadded : whole ++ fraction = padded digits e) (hlength : fraction.length = e + 1) :
    FractionDigits fraction := by
  have hrun : DigitRun (whole ++ fraction) := hpadded ▸ digitRun_padded digits e
  obtain ⟨front, last, rfl⟩ : ∃ front last, fraction = front ++ [last] := by
    rcases List.eq_nil_or_concat fraction with rfl | hconcat
    · cases hlength
    · simpa using hconcat
  obtain ⟨front', hfront'⟩ := exists_toDigits_eq_append digits
  obtain rfl : last = (digits % 10).digitChar := by
    rw [padded, hfront', ← List.append_assoc, ← List.append_assoc] at hpadded
    exact List.singleton_inj.mp (List.append_inj_right' hpadded rfl)
  exact .intro hrun.of_append.2 (digitChar_ne_zero hdigits (Nat.mod_lt _ (by decide)))

end Padded

/-- No digit of a trimmed decimal could be left out. -/
theorem canonicalDigits_positional {d : Decimal} (h : d = ⟨0, 0⟩ ∨ d.digits % 10 ≠ 0) :
    CanonicalDigits d.positional := by
  rcases h with rfl | hlast
  · exact .whole .zero
  · obtain ⟨digits, exponent⟩ := d
    have hne : digits ≠ 0 := by
      rintro rfl
      exact hlast rfl
    cases exponent with
    | ofNat e =>
      have hrun := (digitRun_toDigits digits).append (digitRun_replicate_zero e)
      obtain ⟨first, rest, hcons, hfirst⟩ := exists_toDigits_eq_cons hne
      have hpositional : positional ⟨digits, .ofNat e⟩ = first :: (rest ++ List.replicate e '0') := by
        rw [← List.cons_append, ← hcons]
        rfl
      rw [hcons] at hrun
      rw [hpositional]
      exact .whole (.nonzero hrun hfirst)
    | negSucc e =>
      obtain ⟨whole, fraction, hpositional, hpadded, hlength, hwhole⟩ :=
        exists_positional_negSucc digits e
      rw [hpositional]
      exact .point (wholeDigits_of_padded hne hpadded hlength hwhole)
        (fractionDigits_of_padded hlast hpadded hlength)

/-- There is no point in a decimal with no digits after it. -/
theorem point_not_mem_positional {d : Decimal} (h : 0 ≤ d.exponent) : '.' ∉ d.positional := by
  obtain ⟨digits, exponent⟩ := d
  obtain ⟨e, rfl⟩ := Int.eq_ofNat_of_zero_le h
  intro hmem
  have hrun := (digitRun_toDigits digits).append (digitRun_replicate_zero e)
  exact absurd (hrun '.' hmem) (by decide)

end Decimal

namespace Number

/-! ### The text of a number -/

theorem toList_text_signed {negative : Bool} {m : Magnitude} (hfinite : m.isInfinite = false) :
    (signed negative m).text.toList = (signText negative).toList ++ m.shortest.positional := by
  rw [text, hfinite]
  simp

theorem sign_signText (negative : Bool) : Numeral.Sign (signText negative).toList negative := by
  cases negative with
  | true => exact .minus
  | false => exact .none

/-- The decimal that is written has the number for its rounding. -/
theorem read_text_signed (negative : Bool) (m : Magnitude) :
    Numeral.read (signed negative m).text = .number (signed negative m) := by
  cases hinfinite : m.isInfinite with
  | true =>
    have hm : m = .infinity := Magnitude.eq_of_position (eq_of_beq hinfinite)
    subst hm
    cases negative with
    | true => decide
    | false => decide
  | false =>
    have hdecimal : Numeral.DecimalText (signed negative m).text.toList negative
        (m.shortest.value * 10 ^ (0 : ℤ)) := by
      rw [toList_text_signed hinfinite, ← List.append_nil m.shortest.positional]
      exact .intro (sign_signText negative) m.shortest.mantissa_positional .absent
    obtain ⟨m', hread, hrounds⟩ := hdecimal.read
    rw [zpow_zero, mul_one, ← Decimal.toMagnitude_eq_iff, Magnitude.toMagnitude_shortest hinfinite]
      at hrounds
    rw [hread, hrounds]

/-- **The text of a number reads back.** -/
theorem read_text_self (n : Number) : Numeral.read n.text = .number n := by
  cases n with
  | nan => decide
  | signed negative m => exact read_text_signed negative m

/-- To write a number and to read the text changes nothing. -/
theorem reread_eq (n : Number) : n.reread = n := by
  have hread := n.read_text
  rw [read_text_self] at hread
  exact (Numeral.Reading.number.inj hread).symm

/-- The text is an infinity, or an optional minus and canonical digits. -/
theorem text_shape (negative : Bool) (m : Magnitude) :
    (signed negative m).text = "inf" ∨ (signed negative m).text = "-inf" ∨
      ∃ sign digits, (sign = [] ∨ sign = ['-']) ∧ CanonicalDigits digits ∧
        (signed negative m).text.toList = sign ++ digits := by
  cases hinfinite : m.isInfinite with
  | true =>
    rw [text, if_pos hinfinite]
    cases negative with
    | true => exact Or.inr (Or.inl rfl)
    | false => exact Or.inl rfl
  | false =>
    have hsign : (signText negative).toList = [] ∨ (signText negative).toList = ['-'] := by
      cases negative with
      | true => exact Or.inr rfl
      | false => exact Or.inl rfl
    have hdigits : CanonicalDigits m.shortest.positional :=
      Decimal.canonicalDigits_positional (Decimal.trim_normal _)
    exact Or.inr (Or.inr ⟨_, _, hsign, hdigits, toList_text_signed hinfinite⟩)

/-- There is no point in the text of a whole number. -/
theorem point_not_mem_text {negative : Bool} {m : Magnitude} (hwhole : m.isWhole = true) :
    '.' ∉ (signed negative m).text.toList := by
  have hsign : '.' ∉ (signText negative).toList := by
    cases negative with
    | true => decide
    | false => decide
  cases hinfinite : m.isInfinite with
  | true =>
    rw [text, if_pos hinfinite, String.toList_append, List.mem_append, not_or]
    exact ⟨hsign, by decide⟩
  | false =>
    rw [toList_text_signed hinfinite, List.mem_append, not_or]
    exact ⟨hsign, Decimal.point_not_mem_positional (Magnitude.exponent_shortest_nonneg hwhole)⟩

/-- A number that is not NaN has one bit pattern. -/
theorem toBits_ofBits {bits : UInt64} (h : ofBits bits ≠ nan) : (ofBits bits).toBits = bits := by
  unfold ofBits at h ⊢
  dsimp only at h ⊢
  split at h
  · rename_i hposition
    have hsum : (if signBit ≤ bits.toNat then signBit else 0) + bits.toNat % signBit =
        bits.toNat := by
      have hbits : bits.toNat < 0x10000000000000000 := bits.toNat_lt
      unfold signBit
      split_ifs with hsign
      · omega
      · omega
    rw [dif_pos hposition, toBits]
    simp only [decide_eq_true_eq, hsum, UInt64.ofNat_toNat]
  · exact absurd rfl h

/-- **The text of a number is canonical.**  It is an infinity, or an optional
minus and digits none of which could be left out, with no point in a whole
number.  It reads back as the same number, to the bit; and no other number has
it. -/
theorem text_canonical {n : Number} (hn : n ≠ nan) :
    (n.text = "inf" ∨ n.text = "-inf" ∨
      ∃ sign digits, (sign = [] ∨ sign = ['-']) ∧ CanonicalDigits digits ∧
        n.text.toList = sign ++ digits) ∧
    (∀ negative m, n = signed negative m → m.isWhole = true → '.' ∉ n.text.toList) ∧
    Numeral.read n.text = .number n ∧ (∀ bits, ofBits bits = n → n.toBits = bits) ∧
    ∀ other ≠ nan, other ≠ n → other.text ≠ n.text := by
  cases n with
  | nan => exact absurd rfl hn
  | signed negative m =>
    refine ⟨text_shape negative m, ?_, read_text_self _, ?_, ?_⟩
    · intro _ _ hsame hwhole
      cases hsame
      exact point_not_mem_text hwhole
    · intro bits hbits
      rw [← hbits] at hn ⊢
      exact toBits_ofBits hn
    · intro other _ hne hsame
      have hread := other.read_text_self
      rw [hsame, read_text_self] at hread
      exact hne (Numeral.Reading.number.inj hread).symm

/-- The text of the negative zero is not that of the positive one. -/
theorem text_canonical_negative_zero :
    (signed true .zero ≠ nan ∧ Numeral.read (signed true .zero).text = .number (signed true .zero)) ∧
    (Magnitude.zero.isWhole = true ∧ '.' ∉ (signed true .zero).text.toList) ∧
    (ofBits 0x8000000000000000 = signed true .zero ∧
      (signed true .zero).toBits = 0x8000000000000000) ∧
    signed false .zero ≠ nan ∧ signed false .zero ≠ signed true .zero ∧
      (signed false .zero).text ≠ (signed true .zero).text := by
  have hn : signed true .zero ≠ nan := nofun
  have hwhole : Magnitude.zero.isWhole = true := by decide
  have hbits : ofBits 0x8000000000000000 = signed true .zero := by decide
  obtain ⟨-, hpoint, hread, htoBits, hunique⟩ := text_canonical hn
  have hother : signed false .zero ≠ nan := nofun
  have hne : signed false .zero ≠ signed true .zero := by decide
  exact ⟨⟨hn, hread⟩, ⟨hwhole, hpoint true .zero rfl hwhole⟩, ⟨hbits, htoBits _ hbits⟩,
    hother, hne, hunique _ hother hne⟩

end Number

end ReversePolish
