/-
ReversePolish/Proofs/Value.lean

Values as trees.  An induction on values treats a list with all its elements
at once (`Value.induction`), and two functions follow the same shape:
`Value.texts` lists the texts that occur in a value at any depth, and
`Value.mapNumbers` exchanges the numbers at its leaves.  What a display form
shows besides the texts is printed ASCII (`Value.mem_display`).
-/
import ReversePolish.Proofs.Numeral
import ReversePolish.Value.Basic

namespace ReversePolish

/-- A character of ASCII that is no control. -/
def AsciiShown (c : Char) : Prop := 0x20 ≤ c.toNat ∧ c.toNat ≤ 0x7e

instance (c : Char) : Decidable (AsciiShown c) := inferInstanceAs (Decidable (_ ∧ _))

theorem asciiShown_of_isDigit {c : Char} (h : c.isDigit = true) : AsciiShown c := by
  simp only [Char.isDigit, Bool.and_eq_true, decide_eq_true_eq] at h
  have hlow : 48 ≤ c.toNat := h.1
  have hhigh : c.toNat ≤ 57 := h.2
  exact ⟨by omega, by omega⟩

theorem Number.asciiShown_text {n : Number} {c : Char} (hc : c ∈ n.text.toList) : AsciiShown c := by
  rcases mem_text hc with hdigit | hword
  · exact asciiShown_of_isDigit hdigit
  · exact forall_mem_of_all (by decide) c hword

namespace Value

/-- Induction on values: a list has the property if its elements have it. -/
@[induction_eliminator] theorem induction {motive : Value → Prop}
    (number : ∀ n, motive (.number n)) (text : ∀ s, motive (.text s))
    (truth : ∀ b, motive (.truth b))
    (list : ∀ items, (∀ v ∈ items, motive v) → motive (.list items)) (v : Value) : motive v :=
  @Value.rec motive (fun items => ∀ v ∈ items, motive v) number text truth list
    (fun _ hv => absurd hv List.not_mem_nil)
    (fun _ _ hitem hitems _ hv => by
      rcases List.mem_cons.mp hv with rfl | hv
      · exact hitem
      · exact hitems _ hv) v

/-! ### Texts -/

mutual

/-- The texts that occur in a value, at any depth. -/
def texts : Value → List String
  | number _ => []
  | text s => [s]
  | truth _ => []
  | list items => textsIn items

/-- The texts that occur in the elements of a list. -/
def textsIn : List Value → List String
  | [] => []
  | item :: items => texts item ++ textsIn items

end

theorem textsIn_eq_flatMap (items : List Value) : textsIn items = items.flatMap texts := by
  induction items with
  | nil => rw [textsIn, List.flatMap_nil]
  | cons item items ih => rw [textsIn, List.flatMap_cons, ih]

@[simp] theorem texts_number (n : Number) : (number n).texts = [] := by rw [texts]

@[simp] theorem texts_text (s : String) : (text s).texts = [s] := by rw [texts]

@[simp] theorem texts_truth (b : Bool) : (truth b).texts = [] := by rw [texts]

@[simp] theorem texts_list (items : List Value) : (list items).texts = items.flatMap texts := by
  rw [texts, textsIn_eq_flatMap]

/-! ### Numbers -/

mutual

/-- A value with its numbers exchanged. -/
def mapNumbers (f : Number → Number) : Value → Value
  | number n => number (f n)
  | text s => text s
  | truth b => truth b
  | list items => list (mapNumbersIn f items)

def mapNumbersIn (f : Number → Number) : List Value → List Value
  | [] => []
  | item :: items => mapNumbers f item :: mapNumbersIn f items

end

theorem mapNumbersIn_eq_map (f : Number → Number) (items : List Value) :
    mapNumbersIn f items = items.map (mapNumbers f) := by
  induction items with
  | nil => rw [mapNumbersIn, List.map_nil]
  | cons item items ih => rw [mapNumbersIn, List.map_cons, ih]

/-! ### Display -/

theorem display_list (items : List Value) :
    (list items).display = "[" ++ String.intercalate " " (items.map display) ++ "]" := by
  rw [display, displayAll_eq_map]

theorem toList_display_text (s : String) : (text s).display.toList = '(' :: s.toList ++ [')'] := by
  simp [display]

theorem toList_display_list (items : List Value) :
    (list items).display.toList =
      '[' :: (String.intercalate " " (items.map display)).toList ++ [']'] := by
  simp [display_list]

end Value

/-- A character of a join is one of the delimiter or of one of the pieces. -/
theorem mem_intercalate {delimiter : String} {pieces : List String} {c : Char}
    (hc : c ∈ (String.intercalate delimiter pieces).toList) :
    c ∈ delimiter.toList ∨ ∃ piece ∈ pieces, c ∈ piece.toList := by
  induction pieces with
  | nil => simp at hc
  | cons piece rest ih =>
    cases rest with
    | nil =>
      rw [String.intercalate_singleton] at hc
      exact Or.inr ⟨piece, List.mem_cons_self, hc⟩
    | cons next rest =>
      rw [String.intercalate_cons_cons, String.toList_append, String.toList_append,
        List.mem_append, List.mem_append] at hc
      rcases hc with (hc | hc) | hc
      · exact Or.inr ⟨piece, List.mem_cons_self, hc⟩
      · exact Or.inl hc
      · rcases ih hc with hc | ⟨other, hother, hc⟩
        · exact Or.inl hc
        · exact Or.inr ⟨other, List.mem_cons_of_mem piece hother, hc⟩

/-- A character of a display form stands in one of the texts or is printed
ASCII. -/
theorem Value.mem_display {v : Value} {c : Char} (hc : c ∈ v.display.toList) :
    (∃ s ∈ v.texts, c ∈ s.toList) ∨ AsciiShown c := by
  induction v with
  | number n =>
    rw [display] at hc
    exact Or.inr (Number.asciiShown_text hc)
  | text s =>
    rw [toList_display_text, List.mem_append, List.mem_cons, List.mem_singleton] at hc
    rcases hc with (rfl | hc) | rfl
    · exact Or.inr (by decide)
    · exact Or.inl ⟨s, by simp, hc⟩
    · exact Or.inr (by decide)
  | truth b =>
    right
    cases b with
    | true => exact forall_mem_of_all (by decide) c hc
    | false => exact forall_mem_of_all (by decide) c hc
  | list items ih =>
    rw [toList_display_list, List.mem_append, List.mem_cons, List.mem_singleton] at hc
    rcases hc with (rfl | hc) | rfl
    · exact Or.inr (by decide)
    · rcases mem_intercalate hc with hc | ⟨piece, hpiece, hc⟩
      · obtain rfl := List.mem_singleton.mp hc
        exact Or.inr (by decide)
      · obtain ⟨item, hitem, rfl⟩ := List.mem_map.mp hpiece
        rcases ih item hitem hc with ⟨s, hs, hc⟩ | hshown
        · refine Or.inl ⟨s, ?_, hc⟩
          rw [texts_list]
          exact List.mem_flatMap.mpr ⟨item, hitem, hs⟩
        · exact Or.inr hshown
    · exact Or.inr (by decide)

end ReversePolish
