/-
ReversePolish/Proofs/Numeral.lean

The shape of written numbers.  A decimal in positional notation is a run of
digits, or two runs with a point between them (`Decimal.positional_shape`).
Such a text is a numeral, so the text of every number spells a number
(`Number.read_text`); which one, `Number.reread` says.
-/
import Mathlib.Data.List.TakeWhile
import ReversePolish.Number.Numeral
import ReversePolish.Number.Text

namespace ReversePolish

/-- What has been checked for each element of a list.  The check runs through
the list, which matters for characters: to go through all of them is hopeless. -/
theorem forall_mem_of_all {α : Type} {P : α → Prop} [DecidablePred P] {items : List α}
    (h : items.all (fun a => decide (P a)) = true) : ∀ a ∈ items, P a := by
  intro a ha
  exact of_decide_eq_true (List.all_eq_true.mp h a ha)

/-! ### Runs of digits -/

/-- A run of ASCII digits. -/
def DigitRun (cs : List Char) : Prop := ∀ c ∈ cs, c.isDigit = true

theorem digitRun_toDigits (n : Nat) : DigitRun (Nat.toDigits 10 n) := fun _ hc =>
  Nat.isDigit_of_mem_toDigits (by decide) (by decide) hc

theorem digitRun_replicate_zero (count : Nat) : DigitRun (List.replicate count '0') := by
  intro c hc
  obtain rfl := List.eq_of_mem_replicate hc
  rfl

theorem DigitRun.append {cs ds : List Char} (hc : DigitRun cs) (hd : DigitRun ds) :
    DigitRun (cs ++ ds) := fun c h =>
  (List.mem_append.mp h).elim (hc c) (hd c)

theorem DigitRun.of_append {cs ds : List Char} (h : DigitRun (cs ++ ds)) :
    DigitRun cs ∧ DigitRun ds :=
  ⟨fun c hc => h c (List.mem_append_left ds hc), fun c hc => h c (List.mem_append_right cs hc)⟩

/-! ### Positional notation -/

/-- The characters of a decimal in positional notation: some digits, and
perhaps a point and more digits. -/
inductive Positional : List Char → Prop
  | whole {digits : List Char} : digits ≠ [] → DigitRun digits → Positional digits
  | point {digits fraction : List Char} : digits ≠ [] → DigitRun digits → DigitRun fraction →
      Positional (digits ++ '.' :: fraction)

namespace Decimal

/-- Digits with zeros in front of them, so that one is left before `e + 1`
others. -/
def padded (digits e : Nat) : List Char :=
  List.replicate (e + 2 - (Nat.toDigits 10 digits).length) '0' ++ Nat.toDigits 10 digits

theorem digitRun_padded (digits e : Nat) : DigitRun (padded digits e) :=
  (digitRun_replicate_zero _).append (digitRun_toDigits digits)

/-- Where the point stands if there are `e + 1` digits after it.  The padding
makes room for at least one digit before it. -/
theorem exists_positional_negSucc (digits e : Nat) :
    ∃ whole fraction, positional ⟨digits, .negSucc e⟩ = whole ++ '.' :: fraction ∧
      whole ++ fraction = padded digits e ∧ fraction.length = e + 1 ∧ whole ≠ [] := by
  refine ⟨_, _, rfl, List.take_append_drop .., ?_, ?_⟩
  · simp only [List.length_drop, List.length_append, List.length_replicate]
    omega
  · rw [← List.length_pos_iff]
    simp only [List.length_take, List.length_append, List.length_replicate]
    omega

theorem positional_shape (d : Decimal) : Positional d.positional := by
  obtain ⟨digits, exponent⟩ := d
  cases exponent with
  | ofNat e =>
    refine .whole ?_ ((digitRun_toDigits digits).append (digitRun_replicate_zero e))
    exact List.append_ne_nil_of_left_ne_nil Nat.toDigits_ne_nil _
  | negSucc e =>
    obtain ⟨whole, fraction, hpositional, hpadded, -, hne⟩ := exists_positional_negSucc digits e
    have hrun : DigitRun (whole ++ fraction) := hpadded ▸ digitRun_padded digits e
    rw [hpositional]
    exact .point hne hrun.of_append.1 hrun.of_append.2

end Decimal

namespace Positional

variable {cs : List Char}

/-- A written decimal starts with a digit. -/
theorem exists_digit (h : Positional cs) : ∃ c rest, cs = c :: rest ∧ c.isDigit = true := by
  cases h with
  | whole hne hrun =>
    obtain ⟨c, rest, rfl⟩ := List.exists_cons_of_ne_nil hne
    exact ⟨c, rest, rfl, hrun c List.mem_cons_self⟩
  | point hne hrun _ =>
    obtain ⟨c, rest, rfl⟩ := List.exists_cons_of_ne_nil hne
    exact ⟨c, _, rfl, hrun c List.mem_cons_self⟩

theorem digit_or_point (h : Positional cs) : ∀ c ∈ cs, c.isDigit = true ∨ c = '.' := by
  intro c hc
  cases h with
  | whole _ hrun => exact Or.inl (hrun c hc)
  | point _ hrun hfraction =>
    rcases List.mem_append.mp hc with hc | hc
    · exact Or.inl (hrun c hc)
    · rcases List.mem_cons.mp hc with rfl | hc
      · exact Or.inr rfl
      · exact Or.inl (hfraction c hc)

/-- Positional notation spells a decimal. -/
theorem exists_decimal (h : Positional cs) : ∃ d, Numeral.decimal? cs = some d := by
  cases h with
  | whole hne hrun =>
    have htake : cs.takeWhile Char.isDigit = cs := List.takeWhile_eq_self_iff.mpr hrun
    have hdrop : cs.dropWhile Char.isDigit = [] := List.dropWhile_eq_nil_iff.mpr hrun
    simp [Numeral.decimal?, htake, hdrop, Numeral.splitFraction, Numeral.exponent?, hne]
  | @point digits fraction hne hrun hfraction =>
    have htake : (digits ++ '.' :: fraction).takeWhile Char.isDigit = digits := by
      rw [List.takeWhile_append_of_pos hrun]
      simp
    have hdrop : (digits ++ '.' :: fraction).dropWhile Char.isDigit = '.' :: fraction := by
      rw [List.dropWhile_append_of_pos hrun]
      simp
    have hrest : fraction.dropWhile Char.isDigit = [] := List.dropWhile_eq_nil_iff.mpr hfraction
    simp [Numeral.decimal?, htake, hdrop, Numeral.splitFraction, hrest, Numeral.exponent?, hne]

/-- A decimal spells a number, with a sign before it or without. -/
theorem exists_numeral (h : Positional cs) (negative : Bool) :
    ∃ numeral, Numeral.parse? ((Number.signText negative).toList ++ cs) = some numeral := by
  obtain ⟨d, hd⟩ := h.exists_decimal
  obtain ⟨c, rest, rfl, hc⟩ := h.exists_digit
  have hsign : Numeral.splitSign ((Number.signText negative).toList ++ c :: rest) =
      (negative, c :: rest) := by
    cases negative with
    | true => rfl
    | false =>
      have hplus : c ≠ '+' := by rintro rfl; exact absurd hc (by decide)
      have hminus : c ≠ '-' := by rintro rfl; exact absurd hc (by decide)
      simp [Number.signText, Numeral.splitSign, hplus, hminus]
  simp only [Numeral.parse?, hsign, hd]
  -- also a word would spell a number, but none starts with a digit
  split
  · exact ⟨_, rfl⟩
  · split
    · exact ⟨_, rfl⟩
    · exact ⟨_, rfl⟩

end Positional

/-! ### The text of a number -/

namespace Number

/-- The text of a number is a word, or a decimal with an optional sign. -/
theorem exists_numeral_text (n : Number) :
    ∃ numeral, Numeral.parse? n.text.toList = some numeral := by
  cases n with
  | nan => exact ⟨.nan, by decide⟩
  | signed s m =>
    rw [text, String.toList_append]
    split
    · -- an infinity, which is a word
      cases s with
      | true => exact ⟨.infinity true, by decide⟩
      | false => exact ⟨.infinity false, by decide⟩
    · rw [String.toList_ofList]
      exact m.shortest.positional_shape.exists_numeral s

/-- The number that the text of a number spells. -/
def reread (n : Number) : Number :=
  match Numeral.parse? n.text.toList with
  | some numeral => numeral.toNumber
  | none => n

/-- The text of a number reads as a number. -/
theorem read_text (n : Number) : Numeral.read n.text = .number n.reread := by
  obtain ⟨numeral, h⟩ := n.exists_numeral_text
  simp only [Numeral.read, reread, h]

/-- The characters of the text of a number. -/
theorem mem_text {n : Number} {c : Char} (hc : c ∈ n.text.toList) :
    c.isDigit = true ∨ c ∈ ['.', '-', 'N', 'a', 'i', 'n', 'f'] := by
  cases n with
  | nan => exact Or.inr (forall_mem_of_all (by decide) c hc)
  | signed s m =>
    rw [text, String.toList_append, List.mem_append] at hc
    rcases hc with hc | hc
    · right
      cases s with
      | true => exact forall_mem_of_all (by decide) c hc
      | false => exact forall_mem_of_all (by decide) c hc
    · split at hc
      · exact Or.inr (forall_mem_of_all (by decide) c hc)
      · rw [String.toList_ofList] at hc
        rcases m.shortest.positional_shape.digit_or_point c hc with hdigit | rfl
        · exact Or.inl hdigit
        · exact Or.inr (by decide)

end Number

end ReversePolish
