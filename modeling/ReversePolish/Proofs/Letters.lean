/-
ReversePolish/Proofs/Letters.lean

Where the characters of a value come from.  A text is *written in* a set of
letters if all its characters belong to it, and so is a value if all its texts
are, at any depth.

Main observation: every function that builds a text or a value takes its
characters from its operands, or they are ASCII.  Hence, for a set of letters
with all of ASCII in it, being written in these letters is kept by each of
them.  The only source of other characters is a character code.
-/
import ReversePolish.Datum
import ReversePolish.Proofs.Value
import ReversePolish.Text.Search
import ReversePolish.Token
import ReversePolish.Value.Coercion

namespace ReversePolish

variable {letters : Char → Prop}

/-- The text is written in the given letters. -/
def Written (letters : Char → Prop) (s : String) : Prop := ∀ c ∈ s.toList, letters c

/-- Every text in the value is written in the given letters. -/
def Value.Written (letters : Char → Prop) (v : Value) : Prop :=
  ∀ s ∈ v.texts, ReversePolish.Written letters s

instance [DecidablePred letters] (s : String) : Decidable (Written letters s) :=
  List.decidableBAll letters s.toList

instance [DecidablePred letters] (v : Value) : Decidable (v.Written letters) :=
  List.decidableBAll (Written letters) v.texts

/-- The letters include ASCII. -/
def CoversAscii (letters : Char → Prop) : Prop := ∀ c : Char, c.toNat < 128 → letters c

theorem CoversAscii.shown (h : CoversAscii letters) {c : Char} (hc : AsciiShown c) : letters c :=
  h c (Nat.lt_of_le_of_lt hc.2 (by decide))

/-! ### Texts -/

theorem written_empty : Written letters "" := nofun

theorem Written.append {s t : String} (hs : Written letters s) (ht : Written letters t) :
    Written letters (s ++ t) := by
  intro c hc
  rw [String.toList_append, List.mem_append] at hc
  rcases hc with hc | hc
  · exact hs c hc
  · exact ht c hc

theorem written_ofList {cs : List Char} (h : ∀ c ∈ cs, letters c) :
    Written letters (String.ofList cs) := by
  intro c hc
  rw [String.toList_ofList] at hc
  exact h c hc

theorem written_singleton {c : Char} (h : letters c) : Written letters (String.singleton c) := by
  intro d hd
  rw [String.toList_singleton, List.mem_singleton] at hd
  exact hd ▸ h

theorem CoversAscii.written {s : String} (h : CoversAscii letters)
    (hs : Written AsciiShown s) : Written letters s := fun c hc => h.shown (hs c hc)

namespace Text

variable {text pattern after delimiter : String}

theorem written_replicate (h : Written letters text) (count : Nat) :
    Written letters (replicate text count) := by
  unfold replicate
  split
  · exact written_empty
  · intro c hc
    rw [String.toList_join] at hc
    obtain ⟨piece, hpiece, hmem⟩ := List.mem_flatMap.mp hc
    rw [List.eq_of_mem_replicate hpiece] at hmem
    exact h c hmem

theorem written_join {pieces : List String} (hdelimiter : Written letters delimiter)
    (hpieces : ∀ piece ∈ pieces, Written letters piece) :
    Written letters (join delimiter pieces) := by
  intro c hc
  rcases mem_intercalate hc with hc | ⟨piece, hpiece, hc⟩
  · exact hdelimiter c hc
  · exact hpieces piece hpiece c hc

/-- The pieces of a text consist of its characters. -/
theorem mem_of_mem_pieces {pattern cs piece : List Char} {skip : Nat} {c : Char}
    (hpiece : piece ∈ pieces pattern skip cs) (hc : c ∈ piece) : c ∈ cs := by
  fun_induction pieces pattern skip cs generalizing piece with
  | case1 skip =>
    obtain rfl := List.mem_singleton.mp hpiece
    exact absurd hc List.not_mem_nil
  | case2 skip d rest ih => exact List.mem_cons_of_mem d (ih hpiece hc)
  | case3 d rest hmatch ih =>
    rcases List.mem_cons.mp hpiece with rfl | hpiece
    · exact absurd hc List.not_mem_nil
    · exact List.mem_cons_of_mem d (ih hpiece hc)
  | case4 d rest hmatch ih =>
    -- no match: the character goes to the front of the first piece
    cases hpieces : pieces pattern 0 rest with
    | nil =>
      rw [hpieces] at hpiece
      exact absurd hpiece List.not_mem_nil
    | cons first others =>
      rw [hpieces] at hpiece ih
      rcases List.mem_cons.mp hpiece with rfl | hpiece
      · rcases List.mem_cons.mp hc with rfl | hc
        · exact List.mem_cons_self
        · exact List.mem_cons_of_mem d (ih List.mem_cons_self hc)
      · exact List.mem_cons_of_mem d (ih (List.mem_cons_of_mem first hpiece) hc)

theorem written_split (h : Written letters text) (delimiter : String) :
    ∀ piece ∈ split text delimiter, Written letters piece := by
  intro piece hpiece
  unfold split at hpiece
  split at hpiece
  · rw [List.mem_append, List.mem_cons, List.mem_singleton] at hpiece
    rcases hpiece with (rfl | hpiece) | rfl
    · exact written_empty
    · obtain ⟨c, hc, rfl⟩ := List.mem_map.mp hpiece
      exact written_singleton (h c hc)
    · exact written_empty
  · obtain ⟨cs, hcs, rfl⟩ := List.mem_map.mp hpiece
    exact written_ofList fun c hc => h c (mem_of_mem_pieces hcs hc)

/-- What is written for the matches and what is left of the text. -/
theorem mem_substitute {pattern after cs : List Char} {skip : Nat} {c : Char}
    (hc : c ∈ substitute pattern after skip cs) : c ∈ cs ∨ c ∈ after := by
  fun_induction substitute pattern after skip cs with
  | case1 skip => exact absurd hc List.not_mem_nil
  | case2 skip d rest ih => exact (ih hc).imp (List.mem_cons_of_mem d) id
  | case3 d rest hmatch ih =>
    rcases List.mem_append.mp hc with hc | hc
    · exact Or.inr hc
    · exact (ih hc).imp (List.mem_cons_of_mem d) id
  | case4 d rest hmatch ih =>
    rcases List.mem_cons.mp hc with rfl | hc
    · exact Or.inl List.mem_cons_self
    · exact (ih hc).imp (List.mem_cons_of_mem d) id

theorem written_replace (htext : Written letters text) (hafter : Written letters after)
    (before : String) : Written letters (replace text before after) := by
  unfold replace
  split
  · apply written_ofList
    intro c hc
    rcases List.mem_append.mp hc with hc | hc
    · exact hafter c hc
    · obtain ⟨d, hd, hc⟩ := List.mem_flatMap.mp hc
      rcases List.mem_cons.mp hc with rfl | hc
      · exact htext c hd
      · exact hafter c hc
  · apply written_ofList
    intro c hc
    rcases mem_substitute hc with hc | hc
    · exact htext c hc
    · exact hafter c hc

theorem written_sort {texts : List String} (h : ∀ s ∈ texts, Written letters s) :
    ∀ s ∈ sort texts, Written letters s := fun s hs => h s (List.mem_mergeSort.mp hs)

end Text

/-! ### Values -/

namespace Value

@[simp] theorem written_number (n : Number) : (number n).Written letters := by
  intro s hs
  rw [texts_number] at hs
  exact absurd hs List.not_mem_nil

@[simp] theorem written_truth (b : Bool) : (truth b).Written letters := by
  intro s hs
  rw [texts_truth] at hs
  exact absurd hs List.not_mem_nil

@[simp] theorem written_text {s : String} :
    (text s).Written letters ↔ ReversePolish.Written letters s := by
  simp [Written]

@[simp] theorem written_list {items : List Value} :
    (list items).Written letters ↔ ∀ v ∈ items, v.Written letters := by
  simp only [Written, texts_list, List.mem_flatMap]
  constructor
  · intro h v hv s hs
    exact h s ⟨v, hv, hs⟩
  · rintro h s ⟨v, hv, hs⟩
    exact h v hv s hs

theorem written_blank : blank.Written letters := written_text.mpr written_empty

theorem written_ofTexts {texts : List String} (h : ∀ s ∈ texts, ReversePolish.Written letters s) :
    (ofTexts texts).Written letters := by
  rw [ofTexts, written_list]
  intro v hv
  obtain ⟨s, hs, rfl⟩ := List.mem_map.mp hv
  exact written_text.mpr (h s hs)

variable {v : Value}

theorem Written.display (hascii : CoversAscii letters) (h : v.Written letters) :
    ReversePolish.Written letters v.display := by
  intro c hc
  rcases mem_display hc with ⟨s, hs, hc⟩ | hshown
  · exact h s hs c hc
  · exact hascii.shown hshown

theorem Written.toText (hascii : CoversAscii letters) (h : v.Written letters) :
    ReversePolish.Written letters v.toText := by
  cases v with
  | text s => exact written_text.mp h
  | number | truth | list => exact h.display hascii

theorem Written.toList (h : v.Written letters) : ∀ w ∈ v.toList, w.Written letters := by
  intro w hw
  cases v with
  | list items => exact written_list.mp h w hw
  | text s =>
    obtain ⟨c, hc, rfl⟩ := List.mem_map.mp hw
    exact written_text.mpr (written_singleton (written_text.mp h c hc))
  | number | truth =>
    obtain rfl := List.mem_singleton.mp hw
    exact h

theorem written_kind_name (hascii : CoversAscii letters) (kind : Kind) :
    (text kind.name).Written letters := by
  refine written_text.mpr (hascii.written ?_)
  cases kind <;> decide

theorem Written.coerce (hascii : CoversAscii letters) (h : v.Written letters) {kind : Kind}
    {w : Value} (hw : v.coerce kind = .ok w) : w.Written letters := by
  cases kind with
  | number =>
    cases hn : v.toNumber with
    | error cause => simp [Value.coerce, hn, Except.map] at hw
    | ok n =>
      simp only [Value.coerce, hn, Except.map, Except.ok.injEq] at hw
      exact hw ▸ written_number n
  | text =>
    obtain rfl := Except.ok.inj hw
    exact written_text.mpr (h.toText hascii)
  | truth =>
    obtain rfl := Except.ok.inj hw
    exact written_truth _
  | list =>
    obtain rfl := Except.ok.inj hw
    exact written_list.mpr h.toList

theorem Written.cast (hascii : CoversAscii letters) (h : v.Written letters) {kindName : String}
    {w : Value} (hw : v.cast kindName = .ok w) : w.Written letters := by
  unfold Value.cast at hw
  split at hw
  · exact h.coerce hascii hw
  · exact Except.ok.inj hw ▸ h

end Value

/-! ### Tokens -/

/-- The tokens of a scan consist of the characters scanned. -/
theorem mem_of_mem_scan {level : Nesting} {buffer cs token : List Char} {c : Char}
    (htoken : token ∈ scan level buffer cs) (hc : c ∈ token) : c ∈ buffer ∨ c ∈ cs := by
  fun_induction scan level buffer cs generalizing token with
  | case1 level buffer hempty => exact absurd htoken List.not_mem_nil
  | case2 level buffer hempty =>
    obtain rfl := List.mem_singleton.mp htoken
    exact Or.inl (List.mem_reverse.mp hc)
  | case3 level buffer d rest hspace hempty ih =>
    rcases ih htoken hc with hnil | hrest
    · exact absurd hnil List.not_mem_nil
    · exact Or.inr (List.mem_cons_of_mem d hrest)
  | case4 level buffer d rest hspace hempty ih =>
    -- a space that ends the token in the buffer
    rcases List.mem_cons.mp htoken with rfl | htoken
    · exact Or.inl (List.mem_reverse.mp hc)
    · rcases ih htoken hc with hnil | hrest
      · exact absurd hnil List.not_mem_nil
      · exact Or.inr (List.mem_cons_of_mem d hrest)
  | case5 level buffer d rest hspace ih =>
    rcases ih htoken hc with hbuffer | hrest
    · rcases List.mem_cons.mp hbuffer with rfl | hbuffer
      · exact Or.inr List.mem_cons_self
      · exact Or.inl hbuffer
    · exact Or.inr (List.mem_cons_of_mem d hrest)

theorem Written.tokenize (hascii : CoversAscii letters) {source : String}
    (h : Written letters source) : ∀ token ∈ tokenize source, Written letters token := by
  intro token htoken
  obtain ⟨cs, hcs, rfl⟩ := List.mem_map.mp htoken
  apply written_ofList
  intro c hc
  rcases mem_of_mem_scan hcs hc with hnil | hsource
  · exact absurd hnil List.not_mem_nil
  · obtain ⟨d, hd, rfl⟩ := List.mem_map.mp hsource
    unfold plainSpace
    split
    · exact hascii ' ' (by decide)
    · exact h d hd

namespace Token

/-- The text that a token carries is written in the given letters. -/
def Written (letters : Char → Prop) : Token → Prop
  | number _ => True
  | misspelled spelling => ReversePolish.Written letters spelling
  | truth _ => True
  | text inside => ReversePolish.Written letters inside
  | list body => ReversePolish.Written letters body
  | word name => ReversePolish.Written letters name

theorem written_inside? {opening closing : Char} {token inner : String}
    (h : ReversePolish.Written letters token)
    (hinner : inside? opening closing token = some inner) :
    ReversePolish.Written letters inner := by
  unfold inside? at hinner
  split at hinner
  · rename_i first second rest hchars
    dsimp only at hinner
    split at hinner
    · obtain rfl := Option.some.inj hinner
      refine written_ofList fun c hc => h c ?_
      rw [hchars]
      exact List.mem_cons_of_mem first (List.dropLast_subset _ hc)
    · cases hinner
  · cases hinner

theorem written_ofText {token : String} (h : ReversePolish.Written letters token) :
    (ofText token).Written letters := by
  unfold ofText
  split
  · trivial
  · exact h
  · split
    · trivial
    · split
      · trivial
      · split
        · exact written_inside? h ‹_›
        · split
          · exact written_inside? h ‹_›
          · exact h

end Token

end ReversePolish
