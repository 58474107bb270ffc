/-
ReversePolish/Proofs/Coercion.lean

When a value can be taken for one of another kind.  A text is the only value
that may fail to be a number, and it fails if it is an infinity spelled with
an `İ` or `ı` (`Misspelled`): no decimal has letters but `e` in it, and `nan`
has no `i` (`Numeral.read_eq_misspelled_iff`).

So a cast has a result, which a second cast leaves alone, except for these
texts taken for a number (`Value.cast_settles_iff`).
-/
import ReversePolish.Proofs.Recovery

namespace ReversePolish

namespace Numeral

variable {cs : List Char}

/-! ### Characters of decimals -/

/-- The characters of a decimal besides digits. -/
def decimalMarks : List Char := ['.', 'e', 'E', '+', '-']

theorem mem_splitSign {c : Char} (hc : c ∈ cs) : c = '+' ∨ c = '-' ∨ c ∈ (splitSign cs).2 := by
  unfold splitSign
  split
  · exact (List.mem_cons.mp hc).imp id Or.inr
  · exact Or.inr (List.mem_cons.mp hc)
  · exact Or.inr (Or.inr hc)

theorem mem_exponent {e : Int} (h : exponent? cs = some e) {c : Char} (hc : c ∈ cs) :
    c.isDigit = true ∨ c ∈ decimalMarks := by
  cases cs with
  | nil => exact absurd hc List.not_mem_nil
  | cons mark rest =>
    simp only [exponent?] at h
    split at h
    · rename_i hshape
      simp only [Bool.and_eq_true, Bool.or_eq_true, beq_iff_eq, List.all_eq_true] at hshape
      obtain ⟨⟨hmark, -⟩, hdigits⟩ := hshape
      rcases List.mem_cons.mp hc with rfl | hc
      · rcases hmark with rfl | rfl <;> exact Or.inr (by decide)
      · rcases mem_splitSign hc with rfl | rfl | hc
        · exact Or.inr (by decide)
        · exact Or.inr (by decide)
        · exact Or.inl (hdigits c hc)
    · cases h

/-- A character stands in the run of digits at the front or after it. -/
theorem mem_digits_or_rest {c : Char} (hc : c ∈ cs) :
    c.isDigit = true ∨ c ∈ cs.dropWhile Char.isDigit := by
  rw [← List.takeWhile_append_dropWhile (p := Char.isDigit) (l := cs), List.mem_append] at hc
  exact hc.imp List.mem_takeWhile_imp id

theorem mem_decimal {d : Decimal} (h : decimal? cs = some d) {c : Char} (hc : c ∈ cs) :
    c.isDigit = true ∨ c ∈ decimalMarks := by
  have hexponent : ∃ e, exponent? (splitFraction (cs.dropWhile Char.isDigit)).2 = some e := by
    simp only [decimal?] at h
    split at h
    · cases h
    · obtain ⟨e, he, -⟩ := Option.map_eq_some_iff.mp h
      exact ⟨e, he⟩
  obtain ⟨e, he⟩ := hexponent
  rcases mem_digits_or_rest hc with hdigit | hc
  · exact Or.inl hdigit
  · unfold splitFraction at he
    split at he
    · rename_i rest hrest
      rw [hrest] at hc
      rcases List.mem_cons.mp hc with rfl | hc
      · exact Or.inr (by decide)
      · rcases mem_digits_or_rest hc with hdigit | hc
        · exact Or.inl hdigit
        · exact mem_exponent he hc
    · exact mem_exponent he hc

/-- Nothing that is no digit and no mark can stand in a decimal. -/
theorem decimal?_eq_none {c : Char} (hdigit : c.isDigit = false) (hmark : c ∉ decimalMarks)
    (hc : c ∈ cs) : decimal? cs = none := by
  cases h : decimal? cs with
  | none => rfl
  | some d =>
    rcases mem_decimal h hc with hdigit' | hmark'
    · rw [hdigit] at hdigit'
      cases hdigit'
    · exact absurd hmark' hmark

/-! ### Signs -/

/-- The signs that may stand before a numeral. -/
def signs : List (List Char) := [[], ['+'], ['-']]

theorem exists_sign (cs : List Char) : ∃ sign ∈ signs, cs = sign ++ (splitSign cs).2 := by
  unfold splitSign
  split
  · exact ⟨['+'], by decide, rfl⟩
  · exact ⟨['-'], by decide, rfl⟩
  · exact ⟨[], by decide, rfl⟩

theorem splitSign_append {sign word : List Char} (hsign : sign ∈ signs) (hplus : '+' ∉ word)
    (hminus : '-' ∉ word) : (splitSign (sign ++ word)).2 = word := by
  simp only [signs, List.mem_cons, List.not_mem_nil, or_false] at hsign
  rcases hsign with rfl | rfl | rfl
  · cases word with
    | nil => rfl
    | cons c word =>
      have hplus' : c ≠ '+' := by rintro rfl; exact hplus List.mem_cons_self
      have hminus' : c ≠ '-' := by rintro rfl; exact hminus List.mem_cons_self
      simp [splitSign, hplus', hminus']
  · rfl
  · rfl

/-- Neither sign is taken for a letter, and no letter for a sign. -/
theorem splitSign_map_plainI (cs : List Char) :
    (splitSign (cs.map plainI)).2 = (splitSign cs).2.map plainI := by
  cases cs with
  | nil => rfl
  | cons c cs =>
    by_cases hi : c = 'İ' ∨ c = 'ı'
    · rcases hi with rfl | rfl <;> rfl
    · have hplain : plainI c = c := if_neg hi
      by_cases hplus : c = '+'
      · subst hplus
        rfl
      · by_cases hminus : c = '-'
        · subst hminus
          rfl
        · simp [splitSign, hplain, hplus, hminus]

/-! ### Words -/

/-- A text in small letters. -/
def lower (cs : List Char) : String := String.ofList (cs.map Char.toLower)

/-- A letter that is in none of the words is in no text that spells one. -/
theorem lower_ne {c : Char} (hc : c ∈ cs) {word : String} (hword : c.toLower ∉ word.toList) :
    lower cs ≠ word := by
  rintro rfl
  apply hword
  rw [lower, String.toList_ofList]
  exact List.mem_map_of_mem hc

/-- After its sign a numeral is a word or a decimal. -/
theorem parse?_isSome_iff :
    (parse? cs).isSome ↔ lower (splitSign cs).2 = "inf" ∨ lower (splitSign cs).2 = "infinity" ∨
      lower (splitSign cs).2 = "nan" ∨ (decimal? (splitSign cs).2).isSome := by
  simp only [parse?]
  rw [← lower]
  split
  · rename_i hword
    simp only [Option.isSome_some, true_iff]
    rcases hword with hinf | hinfinity
    · exact Or.inl hinf
    · exact Or.inr (Or.inl hinfinity)
  · rename_i hword
    obtain ⟨hinf, hinfinity⟩ := not_or.mp hword
    split
    · simp [*]
    · simp [*]

end Numeral

/-! ### Misspelled numbers -/

/-- An infinity with one of the two letters in it that are only taken for an
`i`. -/
def Misspelled (s : String) : Prop :=
  ∃ sign word : List Char, s.toList = sign ++ word ∧ sign ∈ Numeral.signs ∧
    Numeral.lower (word.map Numeral.plainI) ∈ ["inf", "infinity"] ∧
    ∃ c ∈ word, c = 'İ' ∨ c = 'ı'

namespace Numeral

theorem read_eq_misspelled {s : String} :
    read s = .misspelled ↔
      parse? s.toList = none ∧ (parse? (s.toList.map plainI)).isSome = true := by
  unfold read
  cases parse? s.toList with
  | some numeral => simp
  | none =>
    dsimp only
    split <;> simp_all

/-- A text with one of the two letters in it is no numeral. -/
theorem parse?_eq_none {c : Char} (hletter : c = 'İ' ∨ c = 'ı') (hc : c ∈ (splitSign cs).2) :
    parse? cs = none := by
  have hnone : ∀ c ∈ ['İ', 'ı'], c.isDigit = false ∧ c ∉ decimalMarks ∧
      ∀ word ∈ ["inf", "infinity", "nan"], c.toLower ∉ word.toList :=
    forall_mem_of_all (by decide)
  obtain ⟨hdigit, hmark, hword⟩ := hnone c (by simpa using hletter)
  rw [← Option.not_isSome_iff_eq_none, parse?_isSome_iff, decimal?_eq_none hdigit hmark hc]
  simp [lower_ne hc (hword "inf" (by decide)), lower_ne hc (hword "infinity" (by decide)),
    lower_ne hc (hword "nan" (by decide))]

/-- With an `i` in it a numeral can only be an infinity. -/
theorem infinity_of_isSome (hi : 'i' ∈ (splitSign cs).2) (h : (parse? cs).isSome = true) :
    lower (splitSign cs).2 ∈ ["inf", "infinity"] := by
  rcases parse?_isSome_iff.mp h with hinf | hinfinity | hnan | hdecimal
  · simp [hinf]
  · simp [hinfinity]
  · exact absurd hnan (lower_ne hi (by decide))
  · rw [decimal?_eq_none (by decide) (by decide) hi] at hdecimal
    cases hdecimal

/-- No sign stands in a word that is taken for an infinity. -/
theorem sign_not_mem {word : List Char} (h : lower (word.map plainI) ∈ ["inf", "infinity"])
    {c : Char} (hc : c ∈ ['+', '-']) : c ∉ word := by
  intro hmem
  have hsign : ∀ c ∈ ['+', '-'], plainI c = c ∧
      ∀ word ∈ ["inf", "infinity"], c.toLower ∉ word.toList := forall_mem_of_all (by decide)
  obtain ⟨hplain, hletters⟩ := hsign c hc
  have hmapped : c ∈ word.map plainI := List.mem_map.mpr ⟨c, hmem, hplain⟩
  exact lower_ne hmapped (hletters _ h) rfl

/-- The texts that are misspelled numbers. -/
theorem read_eq_misspelled_iff {s : String} : read s = .misspelled ↔ Misspelled s := by
  constructor
  · intro h
    obtain ⟨c, hc, hletter⟩ := exists_of_misspelled h
    have hbody : c ∈ (splitSign s.toList).2 := by
      rcases mem_splitSign hc with rfl | rfl | hbody
      · exact absurd hletter (by decide)
      · exact absurd hletter (by decide)
      · exact hbody
    -- in plain letters there is an `i` in its place
    have hi : 'i' ∈ (splitSign (s.toList.map plainI)).2 := by
      rw [splitSign_map_plainI]
      exact List.mem_map.mpr ⟨c, hbody, if_pos hletter⟩
    have hword := infinity_of_isSome hi (read_eq_misspelled.mp h).2
    rw [splitSign_map_plainI] at hword
    obtain ⟨sign, hsign, hsplit⟩ := exists_sign s.toList
    exact ⟨sign, _, hsplit, hsign, hword, c, hbody, hletter⟩
  · rintro ⟨sign, word, hsplit, hsign, hword, c, hc, hletter⟩
    have hbody : (splitSign s.toList).2 = word := by
      rw [hsplit]
      exact splitSign_append hsign (sign_not_mem hword (by decide)) (sign_not_mem hword (by decide))
    refine read_eq_misspelled.mpr ⟨parse?_eq_none hletter (hbody ▸ hc), ?_⟩
    rw [parse?_isSome_iff, splitSign_map_plainI, hbody]
    simp only [List.mem_cons, List.not_mem_nil, or_false] at hword
    exact hword.imp id Or.inl

end Numeral

instance (s : String) : Decidable (Misspelled s) :=
  decidable_of_iff _ Numeral.read_eq_misspelled_iff

/-! ### Casts -/

namespace Value

/-- A value taken for a value of its own kind. -/
theorem coerce_kind (v : Value) : v.coerce v.kind = .ok v := by
  cases v <;> rfl

theorem kind_of_coerce {v r : Value} {k : Kind} (h : v.coerce k = .ok r) : r.kind = k := by
  cases k with
  | number =>
    unfold coerce at h
    cases hn : v.toNumber with
    | error cause =>
      rw [hn] at h
      cases h
    | ok n =>
      rw [hn] at h
      cases h
      rfl
  | text | truth | list =>
    cases h
    rfl

/-- Only a text can fail to be a number. -/
theorem toNumber_eq_error {v : Value} {cause : Fault} :
    v.toNumber = .error cause ↔
      ∃ s, v = .text s ∧ Misspelled s ∧ cause = .misspelledNumber s := by
  cases v with
  | text s =>
    simp only [toNumber, numberOfText, ← Numeral.read_eq_misspelled_iff]
    cases hs : Numeral.read s with
    | misspelled => simp [hs, eq_comm]
    | number n => simp [hs]
    | other => simp [hs]
  | number | truth | list => simp [toNumber]

theorem cast_name (v : Value) (k : Kind) : v.cast k.name = v.coerce k := by
  rw [cast, Kind.ofName?_name]

theorem cast_eq_error {v : Value} {k : Kind} {cause : Fault} :
    v.cast k.name = .error cause ↔
      k = .number ∧ ∃ s, v = .text s ∧ Misspelled s ∧ cause = .misspelledNumber s := by
  rw [cast_name, ← toNumber_eq_error]
  cases k with
  | number =>
    rw [coerce]
    cases v.toNumber <;> simp [Except.map]
  | text | truth | list => simp [coerce]

/-- **Casts.**  A value can be cast to every kind, the result has that kind and
stays the same if it is cast again, with one exception: a misspelled number is
no number, and to cast it to one is a fault that names it. -/
theorem cast_settles_iff (v : Value) (k : Kind) :
    ((∃ r, v.cast k.name = .ok r ∧ r.kind = k ∧ r.cast k.name = .ok r) ↔
      ¬(k = .number ∧ ∃ s, v = .text s ∧ Misspelled s)) ∧
    ∀ cause, v.cast k.name = .error cause ↔
      k = .number ∧ ∃ s, v = .text s ∧ Misspelled s ∧ cause = .misspelledNumber s := by
  refine ⟨⟨?_, fun hspelled => ?_⟩, fun cause => cast_eq_error⟩
  · rintro ⟨r, hr, -⟩ ⟨hk, s, hv, hs⟩
    rw [cast_eq_error.mpr ⟨hk, s, hv, hs, rfl⟩] at hr
    cases hr
  · cases hcast : v.cast k.name with
    | error cause =>
      obtain ⟨hk, s, hv, hs, -⟩ := cast_eq_error.mp hcast
      exact absurd ⟨hk, s, hv, hs⟩ hspelled
    | ok r =>
      rw [cast_name] at hcast
      obtain rfl := kind_of_coerce hcast
      exact ⟨r, rfl, rfl, (cast_name r r.kind).trans r.coerce_kind⟩

/-- An infinity with a dotless letter cannot be cast to a number. -/
theorem cast_not_total :
    ¬∀ (v : Value) (k : Kind), ∃ r, v.cast k.name = .ok r ∧ r.kind = k ∧ r.cast k.name = .ok r := by
  intro htotal
  obtain ⟨r, hr, -⟩ := htotal (.text "ınf") .number
  have hfault : (Value.text "ınf").cast Kind.number.name = .error (.misspelledNumber "ınf") :=
    cast_eq_error.mpr ⟨rfl, "ınf", rfl, by decide, rfl⟩
  rw [hfault] at hr
  cases hr

end Value

end ReversePolish
