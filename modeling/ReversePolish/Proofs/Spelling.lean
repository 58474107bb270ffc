/-
ReversePolish/Proofs/Spelling.lean

The grammar of numerals.  It is stated part by part, each part with its exact
value: signs (`Sign`), digits around a point (`Mantissa`), powers of ten
(`Exponent`), and from these the decimals (`DecimalText`) and the words
(`WordText`).  Nothing in it says how a text is taken apart.

Reading follows the grammar (`Numeral.read_grammar`): exactly the texts of the
grammar spell a number, which for a decimal is its exact value rounded once,
with the sign that is written; a text that is only in the grammar if its `İ`
and `ı` are taken for an `i` is misspelled; everything else is no number.
-/
import Mathlib.Data.Nat.Digits.Defs
import ReversePolish.Proofs.Coercion
import ReversePolish.Proofs.Decimal

namespace ReversePolish

/-! ### Values of digits -/

/-- The value of a run of digits, of which the last one counts ones. -/
def runValue (digits : List Char) : ℕ :=
  Nat.ofDigits 10 (digits.reverse.map fun c => c.toNat - '0'.toNat)

theorem runValue_append (cs ds : List Char) :
    runValue (cs ++ ds) = runValue cs * 10 ^ ds.length + runValue ds := by
  simp only [runValue, List.reverse_append, List.map_append, Nat.ofDigits_append,
    List.length_map, List.length_reverse]
  ring

namespace Numeral

theorem digitsValue_eq (digits : List Char) : digitsValue digits = runValue digits := by
  rw [runValue, Nat.ofDigits_eq_foldr, List.foldr_map, List.foldr_reverse, digitsValue]
  congr 1
  funext value c
  exact Nat.add_comm _ _

/-! ### The grammar -/

/-- An optional sign; `true` is the minus. -/
inductive Sign : List Char → Bool → Prop
  | none : Sign [] false
  | plus : Sign ['+'] false
  | minus : Sign ['-'] true

/-- Digits with an optional point and optional further digits, or a point and
at least one digit; and their value. -/
inductive Mantissa : List Char → ℚ → Prop
  | whole {digits : List Char} : DigitRun digits → digits ≠ [] →
      Mantissa digits (runValue digits)
  | point {digits fraction : List Char} : DigitRun digits → digits ≠ [] → DigitRun fraction →
      Mantissa (digits ++ '.' :: fraction)
        (runValue digits + runValue fraction / 10 ^ fraction.length)
  | bare {fraction : List Char} : DigitRun fraction → fraction ≠ [] →
      Mantissa ('.' :: fraction) (runValue fraction / 10 ^ fraction.length)

/-- An optional exponent: a mark, an optional sign and at least one digit. -/
inductive Exponent : List Char → ℤ → Prop
  | absent : Exponent [] 0
  | present {mark : Char} {sign digits : List Char} {negative : Bool} :
      mark = 'e' ∨ mark = 'E' → Sign sign negative → DigitRun digits → digits ≠ [] →
      Exponent (mark :: (sign ++ digits))
        (if negative then -(runValue digits : ℤ) else runValue digits)

/-- A decimal, with its sign and the exact value after the sign. -/
inductive DecimalText : List Char → Bool → ℚ → Prop
  | intro {sign mantissa exponent : List Char} {negative : Bool} {x : ℚ} {k : ℤ} :
      Sign sign negative → Mantissa mantissa x → Exponent exponent k →
      DecimalText (sign ++ (mantissa ++ exponent)) negative (x * 10 ^ k)

/-- A word in any mix of small and capital letters, and the number it names. -/
inductive WordText : List Char → Number → Prop
  | infinity {sign word : List Char} {negative : Bool} : Sign sign negative →
      lower word = "inf" ∨ lower word = "infinity" →
      WordText (sign ++ word) (.signed negative .infinity)
  | nan {sign word : List Char} {negative : Bool} : Sign sign negative →
      lower word = "nan" → WordText (sign ++ word) .nan

/-- The texts that spell a number. -/
def InGrammar (cs : List Char) : Prop :=
  (∃ negative x, DecimalText cs negative x) ∨ ∃ n, WordText cs n

variable {cs digits fraction rest : List Char} {negative : Bool} {x : ℚ} {k : ℤ}

/-! ### Signs -/

theorem sign_splitSign (cs : List Char) :
    ∃ sign, Sign sign (splitSign cs).1 ∧ cs = sign ++ (splitSign cs).2 := by
  unfold splitSign
  split
  · exact ⟨['+'], .plus, rfl⟩
  · exact ⟨['-'], .minus, rfl⟩
  · exact ⟨[], .none, rfl⟩

/-- The text does not start with a sign. -/
def Unsigned (cs : List Char) : Prop := ∀ c ∈ cs.head?, c ≠ '+' ∧ c ≠ '-'

/-- A sign is split off if no other one follows. -/
theorem Sign.splitSign_append {sign : List Char} (h : Sign sign negative) (hrest : Unsigned rest) :
    splitSign (sign ++ rest) = (negative, rest) := by
  cases h with
  | none =>
    cases rest with
    | nil => rfl
    | cons c rest =>
      obtain ⟨hplus, hminus⟩ := hrest c rfl
      simp [splitSign, hplus, hminus]
  | plus => rfl
  | minus => rfl

theorem unsigned_of_digitRun (hrun : DigitRun digits) : Unsigned digits := by
  intro c hc
  have hdigit := hrun c (List.mem_of_mem_head? hc)
  constructor
  · rintro rfl
    exact absurd hdigit (by decide)
  · rintro rfl
    exact absurd hdigit (by decide)

/-! ### Exponents -/

theorem exponent?_eq_some_iff : exponent? cs = some k ↔ Exponent cs k := by
  constructor
  · intro h
    cases cs with
    | nil =>
      cases h
      exact .absent
    | cons mark rest =>
      obtain ⟨sign, hsign, hrest⟩ := sign_splitSign rest
      simp only [exponent?, digitsValue_eq] at h
      split at h
      · rename_i hshape
        simp only [Bool.and_eq_true, Bool.or_eq_true, beq_iff_eq, List.all_eq_true,
          Bool.not_eq_true', List.isEmpty_eq_false_iff] at hshape
        obtain ⟨⟨hmark, hne⟩, hrun⟩ := hshape
        cases h
        have hpresent := Exponent.present hmark hsign hrun hne
        rwa [← hrest] at hpresent
      · cases h
  · intro h
    cases h with
    | absent => rfl
    | present hmark hsign hrun hne =>
      have hsplit := hsign.splitSign_append (unsigned_of_digitRun hrun)
      have hall := List.all_eq_true.mpr hrun
      simp [exponent?, hsplit, hmark, hne, hall, digitsValue_eq]

/-- No exponent starts with a digit or a point. -/
theorem Exponent.head (h : Exponent cs k) : ∀ c ∈ cs.head?, c.isDigit = false ∧ c ≠ '.' := by
  intro c hc
  cases h with
  | absent => cases hc
  | present hmark _ _ _ =>
    obtain rfl := Option.some.inj hc
    rcases hmark with rfl | rfl
    · decide
    · decide

/-! ### Decimals -/

/-- The digits at the front of a text are found. -/
theorem span_digits (hrun : DigitRun digits) (hhead : ∀ c ∈ rest.head?, c.isDigit = false) :
    (digits ++ rest).takeWhile Char.isDigit = digits ∧
      (digits ++ rest).dropWhile Char.isDigit = rest := by
  rw [List.takeWhile_append_of_pos hrun, List.dropWhile_append_of_pos hrun]
  cases rest with
  | nil => simp
  | cons c rest => simp [hhead c rfl]

theorem exists_span (cs : List Char) : ∃ digits rest, cs = digits ++ rest ∧ DigitRun digits ∧
    ∀ c ∈ rest.head?, c.isDigit = false := by
  refine ⟨cs.takeWhile Char.isDigit, cs.dropWhile Char.isDigit,
    List.takeWhile_append_dropWhile.symm, fun c hc => List.mem_takeWhile_imp hc, fun c hc => ?_⟩
  have hhead := List.head?_dropWhile_not Char.isDigit cs
  rwa [hc] at hhead

/-- The value of digits around a point and an exponent, as `decimal?` puts them
together. -/
theorem value_parts (digits fraction : List Char) (k : ℤ) :
    Decimal.value ⟨digitsValue (digits ++ fraction), k - fraction.length⟩ =
      (runValue digits + runValue fraction / 10 ^ fraction.length) * 10 ^ k := by
  rw [Decimal.value, digitsValue_eq, runValue_append, zpow_sub₀ (by norm_num), zpow_natCast]
  push_cast
  field_simp

/-- A text with a point after its first digits. -/
theorem decimal?_point (hrun : DigitRun digits) (hfraction : DigitRun fraction)
    (hhead : ∀ c ∈ rest.head?, c.isDigit = false) :
    decimal? (digits ++ '.' :: (fraction ++ rest)) =
      if digits.isEmpty && fraction.isEmpty then none
      else (exponent? rest).map fun e =>
        ⟨digitsValue (digits ++ fraction), e - fraction.length⟩ := by
  have hnext : ∀ c ∈ ('.' :: (fraction ++ rest)).head?, c.isDigit = false := by
    intro c hc
    cases hc
    decide
  obtain ⟨htake, hdrop⟩ := span_digits hrun hnext
  obtain ⟨htake', hdrop'⟩ := span_digits hfraction hhead
  rw [decimal?, htake, hdrop]
  simp only [splitFraction, htake', hdrop', Option.getD_some]

/-- A text with no point after its first digits. -/
theorem decimal?_noPoint (hrun : DigitRun digits)
    (hhead : ∀ c ∈ rest.head?, c.isDigit = false ∧ c ≠ '.') :
    decimal? (digits ++ rest) =
      if digits.isEmpty then none
      else (exponent? rest).map fun e => ⟨digitsValue digits, e⟩ := by
  obtain ⟨htake, hdrop⟩ := span_digits hrun fun c hc => (hhead c hc).1
  have hsplit : splitFraction rest = (none, rest) := by
    unfold splitFraction
    split
    · exact absurd rfl (hhead '.' rfl).2
    · rfl
  rw [decimal?, htake, hdrop, hsplit]
  simp

/-- What the grammar calls a decimal is taken for one, with the same value. -/
theorem Mantissa.decimal? {mantissa exponent : List Char} (hm : Mantissa mantissa x)
    (he : Exponent exponent k) :
    ∃ d, decimal? (mantissa ++ exponent) = some d ∧ d.value = x * 10 ^ k := by
  have hexponent := exponent?_eq_some_iff.mpr he
  have hhead : ∀ c ∈ exponent.head?, c.isDigit = false := fun c hc => (he.head c hc).1
  cases hm with
  | whole hrun hne =>
    rw [decimal?_noPoint hrun he.head, hexponent, if_neg (by simpa using hne)]
    refine ⟨_, rfl, ?_⟩
    rw [Decimal.value, digitsValue_eq]
  | @point digits fraction hrun hne hfraction =>
    rw [List.append_assoc, List.cons_append, decimal?_point hrun hfraction hhead, hexponent,
      if_neg (by simp [hne])]
    exact ⟨_, rfl, value_parts digits fraction k⟩
  | @bare fraction hfraction hne =>
    have hempty : DigitRun [] := List.forall_mem_nil _
    have hpoint := decimal?_point hempty hfraction hhead
    rw [hexponent, if_neg (by simp [hne])] at hpoint
    refine ⟨_, hpoint, ?_⟩
    have hzero : runValue [] = 0 := rfl
    rw [value_parts, hzero, Nat.cast_zero, zero_add]

/-- What is taken for a decimal is one by the grammar. -/
theorem exists_mantissa {d : Decimal} (h : decimal? cs = some d) :
    ∃ mantissa exponent x k, cs = mantissa ++ exponent ∧ Mantissa mantissa x ∧
      Exponent exponent k := by
  obtain ⟨digits, after, rfl, hrun, hafter⟩ := exists_span cs
  by_cases hpoint : after.head? = some '.'
  · obtain ⟨tail, rfl⟩ : ∃ tail, after = '.' :: tail := by
      simpa [List.head?_eq_some_iff] using hpoint
    obtain ⟨fraction, rest, rfl, hfraction, hrest⟩ := exists_span tail
    rw [decimal?_point hrun hfraction hrest] at h
    split at h
    · cases h
    · rename_i hne
      obtain ⟨k, hk, -⟩ := Option.map_eq_some_iff.mp h
      have hexponent := exponent?_eq_some_iff.mp hk
      by_cases hdigits : digits = []
      · subst hdigits
        have hbare := Mantissa.bare hfraction (by simpa using hne)
        exact ⟨_, rest, _, k, rfl, hbare, hexponent⟩
      · refine ⟨_, rest, _, k, ?_, .point hrun hdigits hfraction, hexponent⟩
        rw [List.append_assoc, List.cons_append]
  · have hhead : ∀ c ∈ after.head?, c.isDigit = false ∧ c ≠ '.' := by
      intro c hc
      exact ⟨hafter c hc, fun heq => hpoint (heq ▸ hc)⟩
    rw [decimal?_noPoint hrun hhead] at h
    split at h
    · cases h
    · rename_i hne
      obtain ⟨k, hk, -⟩ := Option.map_eq_some_iff.mp h
      have hwhole := Mantissa.whole hrun (by simpa using hne)
      exact ⟨digits, after, _, k, rfl, hwhole, exponent?_eq_some_iff.mp hk⟩

/-! ### Words -/

theorem toLower_of_isDigit {c : Char} (h : c.isDigit = true) : c.toLower = c := by
  have hle : c.toNat ≤ '9'.toNat := (Char.isDigit_iff_toNat.mp h).2
  refine dif_neg fun hupper => ?_
  have hge : 'A'.toNat ≤ c.toNat := UInt32.le_iff_toNat_le.mp hupper.1
  exact absurd (hge.trans hle) (by decide)

/-- There is an `n` in each of the words, but none in a decimal. -/
theorem lower_not_mem_of_decimal? {d : Decimal} (h : decimal? cs = some d) :
    lower cs ∉ ["inf", "infinity", "nan"] := by
  intro hword
  have hn : 'n' ∈ (lower cs).toList :=
    forall_mem_of_all (P := fun word : String => 'n' ∈ word.toList) (by decide) _ hword
  rw [lower, String.toList_ofList] at hn
  obtain ⟨c, hc, hlower⟩ := List.mem_map.mp hn
  rcases mem_decimal h hc with hdigit | hmark
  · rw [← toLower_of_isDigit hdigit, hlower] at hdigit
    cases hdigit
  · have hmarks : ∀ c ∈ decimalMarks, c.toLower ≠ 'n' := forall_mem_of_all (by decide)
    exact hmarks c hmark hlower

theorem unsigned_of_lower {word : List Char} (hword : lower word ∈ ["inf", "infinity", "nan"]) :
    Unsigned word := by
  intro c hc
  have hmem := List.mem_of_mem_head? hc
  have hsigns : ∀ word ∈ ["inf", "infinity", "nan"],
      '+'.toLower ∉ word.toList ∧ '-'.toLower ∉ word.toList := forall_mem_of_all (by decide)
  obtain ⟨hplus, hminus⟩ := hsigns _ hword
  constructor
  · rintro rfl
    exact lower_ne hmem hplus rfl
  · rintro rfl
    exact lower_ne hmem hminus rfl

/-! ### Reading -/

/-- A mantissa starts with a digit or a point. -/
theorem Mantissa.unsigned (h : Mantissa cs x) : Unsigned (cs ++ rest) := by
  intro c hc
  cases h with
  | whole hrun hne =>
    rw [List.head?_append_of_ne_nil _ hne] at hc
    exact unsigned_of_digitRun hrun c hc
  | point hrun hne _ =>
    rw [List.append_assoc, List.head?_append_of_ne_nil _ hne] at hc
    exact unsigned_of_digitRun hrun c hc
  | bare _ _ =>
    cases hc
    decide

theorem parse?_eq {body : List Char} (hsplit : splitSign cs = (negative, body)) :
    parse? cs =
      if lower body = "inf" ∨ lower body = "infinity" then some (infinity negative)
      else if lower body = "nan" then some nan
      else (decimal? body).map (decimal negative) := by
  rw [parse?, hsplit]
  rfl

theorem DecimalText.parse? (h : DecimalText cs negative x) :
    ∃ d, parse? cs = some (.decimal negative d) ∧ d.value = x := by
  obtain ⟨hsign, hm, he⟩ := h
  obtain ⟨d, hd, hvalue⟩ := hm.decimal? he
  have hword := lower_not_mem_of_decimal? hd
  simp only [List.mem_cons, List.not_mem_nil, or_false, not_or] at hword
  refine ⟨d, ?_, hvalue⟩
  rw [parse?_eq (hsign.splitSign_append hm.unsigned), hd]
  simp [hword]

theorem WordText.parse? {n : Number} (h : WordText cs n) :
    ∃ numeral, parse? cs = some numeral ∧ numeral.toNumber = n := by
  cases h with
  | @infinity sign word negative hsign hword =>
    have hunsigned : Unsigned word :=
      unsigned_of_lower (by rcases hword with hword | hword <;> simp [hword])
    refine ⟨.infinity negative, ?_, rfl⟩
    rw [parse?_eq (hsign.splitSign_append hunsigned), if_pos hword]
  | @nan sign word negative hsign hword =>
    have hunsigned : Unsigned word := unsigned_of_lower (by simp [hword])
    refine ⟨.nan, ?_, rfl⟩
    rw [parse?_eq (hsign.splitSign_append hunsigned), hword]
    rfl

/-- The texts of the grammar are those that are taken for a numeral. -/
theorem inGrammar_iff : InGrammar cs ↔ (parse? cs).isSome = true := by
  constructor
  · rintro (⟨negative, x, hdecimal⟩ | ⟨n, hword⟩)
    · obtain ⟨d, hd, -⟩ := hdecimal.parse?
      rw [hd]
      rfl
    · obtain ⟨numeral, hnumeral, -⟩ := hword.parse?
      rw [hnumeral]
      rfl
  · intro h
    obtain ⟨sign, hsign, hsplit⟩ := sign_splitSign cs
    rw [hsplit]
    rcases parse?_isSome_iff.mp h with hinf | hinfinity | hnan | hdecimal
    · exact Or.inr ⟨_, .infinity hsign (Or.inl hinf)⟩
    · exact Or.inr ⟨_, .infinity hsign (Or.inr hinfinity)⟩
    · exact Or.inr ⟨_, .nan hsign hnan⟩
    · obtain ⟨d, hd⟩ := Option.isSome_iff_exists.mp hdecimal
      obtain ⟨mantissa, exponent, x, k, hbody, hm, he⟩ := exists_mantissa hd
      rw [hbody]
      exact Or.inl ⟨_, _, .intro hsign hm he⟩

/-- A decimal spells its exact value, rounded. -/
theorem DecimalText.read {s : String} (h : DecimalText s.toList negative x) :
    ∃ m, read s = .number (.signed negative m) ∧ Magnitude.Rounds x m := by
  obtain ⟨d, hd, hvalue⟩ := h.parse?
  refine ⟨d.toMagnitude, ?_, hvalue ▸ d.rounds_toMagnitude⟩
  simp only [Numeral.read, hd, toNumber]

/-- A word spells what it names. -/
theorem WordText.read {s : String} {n : Number} (h : WordText s.toList n) :
    read s = .number n := by
  obtain ⟨numeral, hnumeral, rfl⟩ := h.parse?
  simp only [Numeral.read, hnumeral]

/-- **Reading follows the grammar.**  A text spells a number exactly if it is in
the grammar, and it is misspelled exactly if it is not, but would be with an `i`
for each `İ` and `ı`.  A decimal spells the one magnitude that its exact value
is rounded to, with the sign that is written; a word spells what it names. -/
theorem read_grammar (s : String) :
    ((∃ n, read s = .number n) ↔ InGrammar s.toList) ∧
    (read s = .misspelled ↔ ¬InGrammar s.toList ∧ InGrammar (s.toList.map plainI)) ∧
    (read s = .other ↔ ¬InGrammar s.toList ∧ ¬InGrammar (s.toList.map plainI)) ∧
    (∀ negative x, DecimalText s.toList negative x →
      ∃ m, read s = .number (.signed negative m) ∧ ∀ m', Magnitude.Rounds x m' ↔ m' = m) ∧
    ∀ n, WordText s.toList n → read s = .number n := by
  refine ⟨?_, ?_, ?_, ?_, fun _ h => h.read⟩
  · rw [inGrammar_iff, read]
    cases parse? s.toList with
    | some numeral => simp
    | none =>
      dsimp only
      split <;> simp
  · rw [read_eq_misspelled, inGrammar_iff, inGrammar_iff, Option.not_isSome_iff_eq_none]
  · rw [inGrammar_iff, inGrammar_iff, read]
    cases parse? s.toList with
    | some numeral => simp
    | none =>
      dsimp only
      split <;> simp [*]
  · intro negative x h
    obtain ⟨m, hread, hrounds⟩ := h.read
    refine ⟨m, hread, fun m' => ⟨fun hrounds' => hrounds'.unique hrounds, ?_⟩⟩
    rintro rfl
    exact hrounds

/-- Half way between two doubles, and a word with a sign. -/
theorem read_grammar_tie :
    (DecimalText "-900719925474099.3E+1".toList true 9007199254740993 ∧
      ∃ m, read "-900719925474099.3E+1" = .number (.signed true m) ∧
        ∀ m', Magnitude.Rounds 9007199254740993 m' ↔ m' = m) ∧
    WordText "+iNFinity".toList .infinity ∧ read "+iNFinity" = .number .infinity := by
  have hdecimal : DecimalText "-900719925474099.3E+1".toList true 9007199254740993 := by
    have hdigits : DigitRun "900719925474099".toList := forall_mem_of_all (by decide)
    have hfraction : DigitRun "3".toList := forall_mem_of_all (by decide)
    have hpower : DigitRun "1".toList := forall_mem_of_all (by decide)
    have hmantissa := Mantissa.point hdigits (by decide) hfraction
    have hexponent := Exponent.present (Or.inr rfl) .plus hpower (by decide)
    have hrun : runValue "900719925474099".toList = 900719925474099 ∧
        runValue "3".toList = 3 ∧ runValue "1".toList = 1 ∧ "3".toList.length = 1 := by decide
    have htext := DecimalText.intro .minus hmantissa hexponent
    rw [hrun.1, hrun.2.1, hrun.2.2.1, hrun.2.2.2] at htext
    convert htext using 1
    · decide
    · norm_num
  have hword : WordText "+iNFinity".toList .infinity :=
    @WordText.infinity _ "iNFinity".toList _ .plus (by decide)
  exact ⟨⟨hdecimal, (read_grammar _).2.2.2.1 true _ hdecimal⟩, hword,
    (read_grammar _).2.2.2.2 _ hword⟩

end Numeral

end ReversePolish
