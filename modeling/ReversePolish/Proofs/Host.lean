/-
ReversePolish/Proofs/Host.lean

Data that comes from the host.  The texts in a datum are its own, at any
depth (`Datum.texts`); everything else that its plain form or its dump shows is
printed ASCII.  So a machine whose stack, variables, replies and clock are
written in given letters (`Machine.Written`) receives nothing from its host
that is not.
-/
import ReversePolish.Machine
import ReversePolish.Proofs.Letters

namespace ReversePolish

/-! ### ASCII forms of numbers -/

theorem asciiShown_of_mem_toDigits {base n : Nat} (hlow : 1 < base) (hhigh : base ≤ 16) {c : Char}
    (hc : c ∈ Nat.toDigits base n) : AsciiShown c := by
  have hdigit : ∀ d < 16, AsciiShown (Nat.digitChar d) := by decide
  -- the digits of `n` are those of `n / base` and one more
  induction n using Nat.strongRecOn with
  | ind n ih =>
    rw [Nat.toDigits_eq_if hlow] at hc
    split at hc
    · obtain rfl := List.mem_singleton.mp hc
      exact hdigit n (by omega)
    · rcases List.mem_append.mp hc with hc | hc
      · exact ih (n / base) (Nat.div_lt_self (by omega) hlow) hc
      · obtain rfl := List.mem_singleton.mp hc
        exact hdigit _ (Nat.lt_of_lt_of_le (Nat.mod_lt n (by omega)) hhigh)

theorem asciiShown_repr {n : Nat} {c : Char} (hc : c ∈ n.repr.toList) : AsciiShown c := by
  rw [Nat.toList_repr] at hc
  exact asciiShown_of_mem_toDigits (by decide) (by decide) hc

theorem asciiShown_toString {n : Int} {c : Char} (hc : c ∈ (toString n).toList) : AsciiShown c := by
  rw [Int.toString_eq_repr] at hc
  cases n with
  | ofNat n => exact asciiShown_repr hc
  | negSucc n =>
    have hrepr : (Int.negSucc n).repr = "-" ++ (n + 1).repr := rfl
    rw [hrepr, String.toList_append, List.mem_append] at hc
    rcases hc with hc | hc
    · obtain rfl := List.mem_singleton.mp hc
      decide
    · exact asciiShown_repr hc

theorem Decimal.asciiShown_positional {d : Decimal} {c : Char} (hc : c ∈ d.positional) :
    AsciiShown c := by
  rcases d.positional_shape.digit_or_point c hc with hdigit | rfl
  · exact asciiShown_of_isDigit hdigit
  · decide

theorem Number.asciiShown_scientific {d : Decimal} {c : Char} (hc : c ∈ (scientific d).toList) :
    AsciiShown c := by
  have hdigit : ∀ n, ∀ c ∈ Nat.toDigits 10 n, AsciiShown c := fun n c hc =>
    asciiShown_of_mem_toDigits (by decide) (by decide) hc
  simp only [scientific, String.toList_ofList, List.mem_append, List.mem_cons] at hc
  rcases hc with hmantissa | rfl | rfl | hzero | hexponent
  · split at hmantissa
    · -- the point stands after the first digit
      rename_i first second rest hdigits
      have hmem : c = '.' ∨ c ∈ Nat.toDigits 10 d.digits := by
        rw [hdigits]
        simp only [List.mem_cons] at hmantissa ⊢
        exact or_left_comm.mp hmantissa
      rcases hmem with rfl | hmem
      · decide
      · exact hdigit _ c hmem
    · exact hdigit _ c hmantissa
  · decide
  · split <;> decide
  · obtain rfl := List.eq_of_mem_replicate hzero
    decide
  · exact hdigit _ c hexponent

theorem Number.asciiShown_hostText {n : Number} {c : Char} (hc : c ∈ n.hostText.toList) :
    AsciiShown c := by
  have hsign : ∀ s, Written AsciiShown (signText s) := by decide
  have hword : ∀ word ∈ ["nan", "inf", ".0", ""], Written AsciiShown word := by decide
  cases n with
  | nan => exact hword "nan" (by simp) c hc
  | signed s m =>
    rw [hostText, String.toList_append, List.mem_append] at hc
    rcases hc with hc | hc
    · exact hsign s c hc
    · dsimp only at hc
      split at hc
      · exact hword "inf" (by simp) c hc
      · split at hc
        · rw [String.toList_append, String.toList_ofList, List.mem_append] at hc
          rcases hc with hc | hc
          · exact Decimal.asciiShown_positional hc
          · split at hc
            · exact hword ".0" (by simp) c hc
            · exact hword "" (by simp) c hc
        · exact asciiShown_scientific hc

/-! ### Quoted text -/

theorem Text.asciiShown_hexadecimal {width n : Nat} {c : Char} (hc : c ∈ hexadecimal width n) :
    AsciiShown c := by
  rcases List.mem_append.mp hc with hc | hc
  · obtain rfl := List.eq_of_mem_replicate hc
    decide
  · exact asciiShown_of_mem_toDigits (by decide) (by decide) hc

/-- An escape shows the character itself or printed ASCII. -/
theorem Text.mem_escape {mark c d : Char} (hd : d ∈ escape mark c) : d = c ∨ AsciiShown d := by
  have hletters : ∀ d ∈ ['t', 'n', 'r', 'x', 'u', 'U'], AsciiShown d :=
    forall_mem_of_all (by decide)
  unfold escape at hd
  split at hd
  · rcases List.mem_cons.mp hd with rfl | hd
    · exact Or.inr (by decide)
    · exact Or.inl (List.mem_singleton.mp hd)
  · -- past a backslash, every escape is a letter and hexadecimal digits
    have hlong : ∀ e digits, e ∈ ['t', 'n', 'r', 'x', 'u', 'U'] →
        (∀ d ∈ digits, AsciiShown d) → d ∈ '\\' :: e :: digits → AsciiShown d := by
      intro e digits he hdigits hd
      rcases List.mem_cons.mp hd with rfl | hd
      · decide
      rcases List.mem_cons.mp hd with rfl | hd
      · exact hletters d he
      · exact hdigits d hd
    have hhex : ∀ width, ∀ d ∈ hexadecimal width c.toNat, AsciiShown d :=
      fun width d hd => asciiShown_hexadecimal hd
    split at hd
    · exact Or.inr (hlong 't' [] (by simp) nofun hd)
    split at hd
    · exact Or.inr (hlong 'n' [] (by simp) nofun hd)
    split at hd
    · exact Or.inr (hlong 'r' [] (by simp) nofun hd)
    split at hd
    · exact Or.inl (List.mem_singleton.mp hd)
    split at hd
    · exact Or.inr (hlong 'x' _ (by simp) (hhex 2) hd)
    split at hd
    · exact Or.inr (hlong 'u' _ (by simp) (hhex 4) hd)
    · exact Or.inr (hlong 'U' _ (by simp) (hhex 8) hd)

theorem Text.mem_quoted {s : String} {c : Char} (hc : c ∈ (quoted s).toList) :
    c ∈ s.toList ∨ AsciiShown c := by
  have hmark : AsciiShown (quoteMark s.toList) := by
    unfold quoteMark
    split <;> decide
  rw [quoted, String.toList_ofList, List.mem_append, List.mem_cons, List.mem_singleton] at hc
  rcases hc with (rfl | hc) | rfl
  · exact Or.inr hmark
  · obtain ⟨d, hd, hc⟩ := List.mem_flatMap.mp hc
    rcases mem_escape hc with rfl | hshown
    · exact Or.inl hd
    · exact Or.inr hshown
  · exact Or.inr hmark

/-! ### Data -/

namespace Datum

/-- Induction on data: a list or tuple has the property if its elements have
it. -/
@[induction_eliminator] theorem induction {motive : Datum → Prop}
    (number : ∀ n, motive (.number n)) (integer : ∀ n, motive (.integer n))
    (text : ∀ s, motive (.text s)) (truth : ∀ b, motive (.truth b))
    (list : ∀ items, (∀ d ∈ items, motive d) → motive (.list items))
    (tuple : ∀ items, (∀ d ∈ items, motive d) → motive (.tuple items))
    (nothing : motive .nothing) (d : Datum) : motive d :=
  @Datum.rec motive (fun items => ∀ d ∈ items, motive d) number integer text truth list tuple
    nothing (fun _ hd => absurd hd List.not_mem_nil)
    (fun _ _ hitem hitems _ hd => by
      rcases List.mem_cons.mp hd with rfl | hd
      · exact hitem
      · exact hitems _ hd) d

mutual

/-- The texts that occur in a datum, at any depth. -/
def texts : Datum → List String
  | number _ => []
  | integer _ => []
  | text s => [s]
  | truth _ => []
  | list items => textsIn items
  | tuple items => textsIn items
  | nothing => []

/-- The texts that occur in the elements of a list. -/
def textsIn : List Datum → List String
  | [] => []
  | item :: items => texts item ++ textsIn items

end

theorem textsIn_eq_flatMap (items : List Datum) : textsIn items = items.flatMap texts := by
  induction items with
  | nil => rw [textsIn, List.flatMap_nil]
  | cons item items ih => rw [textsIn, List.flatMap_cons, ih]

theorem dumpAll_eq_map (items : List Datum) : dumpAll items = items.map dump := by
  induction items with
  | nil => rw [dumpAll, List.map_nil]
  | cons item items ih => rw [dumpAll, List.map_cons, ih]

theorem dump_tuple (items : List Datum) :
    ∃ closing ∈ [")", ",)"],
      (tuple items).dump = "(" ++ String.intercalate ", " (items.map dump) ++ closing := by
  match items with
  | [] => exact ⟨")", by simp, by rw [dump, dumpAll_eq_map]; nofun⟩
  | [item] =>
    refine ⟨",)", by simp, ?_⟩
    rw [dump, List.map_cons, List.map_nil, String.intercalate_singleton]
  | first :: second :: rest => exact ⟨")", by simp, by rw [dump, dumpAll_eq_map]; nofun⟩

/-- Every text in the datum is written in the given letters. -/
def Written (letters : Char → Prop) (d : Datum) : Prop :=
  ∀ s ∈ d.texts, ReversePolish.Written letters s

variable {letters : Char → Prop}

instance [DecidablePred letters] (d : Datum) : Decidable (d.Written letters) :=
  List.decidableBAll (ReversePolish.Written letters) d.texts

theorem written_text {s : String} :
    (text s).Written letters ↔ ReversePolish.Written letters s := by
  simp [Written, texts]

theorem written_list {items : List Datum} :
    (list items).Written letters ↔ ∀ d ∈ items, d.Written letters := by
  simp only [Written, texts, textsIn_eq_flatMap, List.mem_flatMap]
  constructor
  · intro h d hd s hs
    exact h s ⟨d, hd, hs⟩
  · rintro h s ⟨d, hd, hs⟩
    exact h d hd s hs

theorem written_tuple {items : List Datum} :
    (tuple items).Written letters ↔ ∀ d ∈ items, d.Written letters := by
  have hsame : (tuple items).texts = (list items).texts := by rw [texts, texts]
  rw [← written_list, Written, Written, hsame]

/-- The elements of a list or tuple between two marks. -/
theorem written_dumps (hascii : CoversAscii letters) {items : List Datum}
    (h : ∀ d ∈ items, ReversePolish.Written letters d.dump) {opening closing : String}
    (hopening : ReversePolish.Written AsciiShown opening)
    (hclosing : ReversePolish.Written AsciiShown closing) :
    ReversePolish.Written letters
      (opening ++ String.intercalate ", " (items.map dump) ++ closing) := by
  refine ((hascii.written hopening).append ?_).append (hascii.written hclosing)
  apply Text.written_join (hascii.written (by decide))
  intro piece hpiece
  obtain ⟨item, hitem, rfl⟩ := List.mem_map.mp hpiece
  exact h item hitem

theorem Written.dump (hascii : CoversAscii letters) {d : Datum} (h : d.Written letters) :
    ReversePolish.Written letters d.dump := by
  induction d with
  | number n =>
    rw [Datum.dump]
    exact hascii.written fun c hc => Number.asciiShown_hostText hc
  | integer n =>
    rw [Datum.dump]
    exact hascii.written fun c hc => asciiShown_toString hc
  | text s =>
    rw [Datum.dump]
    intro c hc
    rcases Text.mem_quoted hc with hc | hshown
    · exact written_text.mp h c hc
    · exact hascii.shown hshown
  | truth b =>
    refine hascii.written ?_
    cases b <;> rw [Datum.dump] <;> decide
  | list items ih =>
    rw [Datum.dump, dumpAll_eq_map]
    refine written_dumps hascii (fun d hd => ih d hd (written_list.mp h d hd)) ?_ ?_ <;> decide
  | tuple items ih =>
    have hitems : ∀ d ∈ items, ReversePolish.Written letters d.dump := fun d hd =>
      ih d hd (written_tuple.mp h d hd)
    obtain ⟨closing, hclosing, hdump⟩ := dump_tuple items
    rw [hdump]
    refine written_dumps hascii hitems (by decide) ?_
    exact (show ∀ closing ∈ [")", ",)"], ReversePolish.Written AsciiShown closing by decide) _
      hclosing
  | nothing =>
    rw [Datum.dump]
    exact hascii.written (by decide)

theorem Written.plainText (hascii : CoversAscii letters) {d : Datum} (h : d.Written letters) :
    ReversePolish.Written letters d.plainText := by
  cases d with
  | text s => exact written_text.mp h
  | number | integer | truth | list | tuple | nothing => exact h.dump hascii

/-- The values of several data. -/
theorem written_toValues {items : List Datum}
    (h : ∀ d ∈ items, ∀ v, d.toValue = .ok v → v.Written letters) {values : List Value}
    (hvalues : toValues items = .ok values) : (Value.list values).Written letters := by
  rw [Value.written_list]
  induction items generalizing values with
  | nil =>
    rw [toValues] at hvalues
    obtain rfl := Except.ok.inj hvalues
    nofun
  | cons item items ih =>
    rw [toValues] at hvalues
    rcases hfirst : item.toValue with cause | first
    · rw [hfirst] at hvalues
      cases hvalues
    rcases hrest : toValues items with cause | rest
    · rw [hfirst, hrest] at hvalues
      cases hvalues
    rw [hfirst, hrest] at hvalues
    obtain rfl := Except.ok.inj hvalues
    intro v hv
    rcases List.mem_cons.mp hv with rfl | hv
    · exact h item List.mem_cons_self v hfirst
    · exact ih (fun d hd => h d (List.mem_cons_of_mem item hd)) hrest v hv

theorem toValues_error {items : List Datum}
    (h : ∀ d ∈ items, ∀ cause, d.toValue = .error cause → cause = .integerTooLarge)
    {cause : Fault} (hcause : toValues items = .error cause) : cause = .integerTooLarge := by
  induction items with
  | nil =>
    rw [toValues] at hcause
    cases hcause
  | cons item items ih =>
    rw [toValues] at hcause
    rcases hfirst : item.toValue with early | first
    · rw [hfirst] at hcause
      obtain rfl := Except.error.inj hcause
      exact h item List.mem_cons_self early hfirst
    rcases hrest : toValues items with later | rest
    · rw [hfirst, hrest] at hcause
      obtain rfl := Except.error.inj hcause
      exact ih (fun d hd => h d (List.mem_cons_of_mem item hd)) hrest
    · rw [hfirst, hrest] at hcause
      cases hcause

/-- Only an integer can fail to be a value. -/
theorem toValue_error {d : Datum} {cause : Fault} (h : d.toValue = .error cause) :
    cause = .integerTooLarge := by
  induction d generalizing cause with
  | integer n =>
    rw [Datum.toValue, integerValue] at h
    -- whether there is a nearest number is never computed
    generalize Number.ofInt? n = nearest at h
    cases nearest with
    | none => exact (Except.error.inj h).symm
    | some value => cases h
  | list items ih | tuple items ih =>
    rw [Datum.toValue] at h
    rcases hvalues : toValues items with early | values
    · rw [hvalues] at h
      obtain rfl := Except.error.inj h
      exact toValues_error (fun d hd _ => ih d hd) hvalues
    · rw [hvalues] at h
      cases h
  | number | text | truth | nothing =>
    rw [Datum.toValue] at h
    cases h

theorem written_integerValue {n : Int} {v : Value} (hv : integerValue n = .ok v) :
    v.Written letters := by
  rw [integerValue] at hv
  -- as above, for huge integers have no nearest number to compute
  generalize Number.ofInt? n = nearest at hv
  cases nearest with
  | none => cases hv
  | some value =>
    obtain rfl := Except.ok.inj hv
    exact Value.written_number value

theorem toValue_tuple (items : List Datum) : (tuple items).toValue = (list items).toValue := by
  rw [Datum.toValue, Datum.toValue]

theorem written_toValue_list {items : List Datum}
    (h : ∀ d ∈ items, ∀ v, d.toValue = .ok v → v.Written letters) {v : Value}
    (hv : (list items).toValue = .ok v) : v.Written letters := by
  rw [Datum.toValue] at hv
  rcases hvalues : toValues items with cause | values
  · rw [hvalues] at hv
    cases hv
  · rw [hvalues] at hv
    obtain rfl := Except.ok.inj hv
    exact written_toValues h hvalues

theorem Written.toValue (hascii : CoversAscii letters) {d : Datum} (h : d.Written letters)
    {v : Value} (hv : d.toValue = .ok v) : v.Written letters := by
  induction d generalizing v with
  | number n =>
    rw [Datum.toValue] at hv
    exact Except.ok.inj hv ▸ Value.written_number n
  | integer n =>
    rw [Datum.toValue] at hv
    exact written_integerValue hv
  | text s =>
    rw [Datum.toValue] at hv
    exact Except.ok.inj hv ▸ Value.written_text.mpr (written_text.mp h)
  | truth b =>
    rw [Datum.toValue] at hv
    exact Except.ok.inj hv ▸ Value.written_truth b
  | list items ih => exact written_toValue_list (fun d hd _ => ih d hd (written_list.mp h d hd)) hv
  | tuple items ih =>
    rw [toValue_tuple] at hv
    exact written_toValue_list (fun d hd _ => ih d hd (written_tuple.mp h d hd)) hv
  | nothing =>
    rw [Datum.toValue] at hv
    exact Except.ok.inj hv ▸ Value.written_text.mpr (hascii.written (by decide))

end Datum

/-! ### The clock -/

/-- What the clock shows now and later. -/
def Clock.readings (clock : Clock) : List Datum := clock.reading :: clock.later

theorem Clock.reading_mem (clock : Clock) : clock.reading ∈ clock.readings := List.mem_cons_self

/-- A clock shows nothing that it would not have shown before. -/
theorem Clock.readings_tick (clock : Clock) : clock.tick.readings ⊆ clock.readings := by
  rcases clock with ⟨reading, _ | ⟨next, later⟩⟩
  · exact List.Subset.refl _
  · exact List.subset_cons_self reading (next :: later)

/-! ### The variables -/

/-- The names of all variables are written in the given letters, and so are
their values. -/
def Store.Written (letters : Char → Prop) (s : Store) : Prop :=
  ∀ entry ∈ s.entries, ReversePolish.Written letters entry.1 ∧ entry.2.Written letters

namespace Store

variable {letters : Char → Prop} {s : Store} {name : String} {v : Value}

instance [DecidablePred letters] (s : Store) : Decidable (s.Written letters) :=
  List.decidableBAll (fun entry : String × Value =>
    ReversePolish.Written letters entry.1 ∧ entry.2.Written letters) s.entries

theorem Written.define (h : s.Written letters) (hname : ReversePolish.Written letters name)
    (hv : v.Written letters) : (s.define name v).Written letters := by
  intro entry hentry
  unfold Store.define at hentry
  split at hentry
  · obtain ⟨old, hold, rfl⟩ := List.mem_map.mp hentry
    unfold rebind
    split
    · exact ⟨(h old hold).1, hv⟩
    · exact h old hold
  · rcases List.mem_append.mp hentry with hentry | hentry
    · exact h entry hentry
    · obtain rfl := List.mem_singleton.mp hentry
      exact ⟨hname, hv⟩

theorem Written.free (h : s.Written letters) (name : String) : (s.free name).Written letters :=
  fun entry hentry => h entry (List.mem_filter.mp hentry).1

theorem Written.names (h : s.Written letters) :
    ∀ name ∈ s.names, ReversePolish.Written letters name := by
  intro name hname
  obtain ⟨entry, hentry, rfl⟩ := List.mem_map.mp hname
  exact (h entry hentry).1

theorem Written.lookup? (h : s.Written letters) (hv : s.lookup? name = some v) :
    v.Written letters := by
  obtain ⟨before, after, hentries, -⟩ := List.lookup_eq_some_iff.mp hv
  have hmem : (name, v) ∈ s.entries := by
    rw [hentries]
    exact List.mem_append_right before List.mem_cons_self
  exact (h _ hmem).2

end Store

/-! ### The machine -/

/-- Everything that the machine holds or may still receive is written in the
given letters. -/
structure Machine.Written (letters : Char → Prop) (m : Machine) : Prop where
  stack : ∀ v ∈ m.stack.topFirst, v.Written letters
  store : m.store.Written letters
  replies : ∀ d ∈ m.host.replies, d.Written letters
  clock : ∀ d ∈ m.host.clock.readings, d.Written letters

end ReversePolish
