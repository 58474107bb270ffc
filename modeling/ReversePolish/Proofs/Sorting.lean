/-
ReversePolish/Proofs/Sorting.lean

Sorting texts.  The order is the lexicographic one on the codes of the
characters (`Text.codes`), which is a linear order and tells all texts apart.
So there is exactly one way to put given texts in order, and `Text.sort` finds
it (`Text.sort_perm`, `Text.inOrder_sort`, `Text.eq_sort`).

The command takes any value for a list and the elements for texts.  What it
gives therefore depends only on which texts there are, and is its own result
when it is sorted again.
-/
import Mathlib.Data.List.Lex
import ReversePolish.Proofs.Exchange

namespace ReversePolish

namespace Text

/-! ### Order -/

/-- The codes of the characters of a text. -/
def codes (s : String) : List ℕ := s.toList.map Char.toNat

theorem codes_injective : Function.Injective codes := by
  intro a b h
  have hchar : Function.Injective Char.toNat := fun _ _ => Char.toNat_inj.mp
  exact String.toList_injective (hchar.list_map h)

/-- The texts never decrease. -/
def InOrder (texts : List String) : Prop := texts.Pairwise fun a b => codes a ≤ codes b

theorem atMost_iff (as bs : List Char) :
    atMost as bs = true ↔ as.map Char.toNat ≤ bs.map Char.toNat := by
  rw [← not_lt]
  induction as generalizing bs with
  | nil => simp [atMost]
  | cons a as ih =>
    cases bs with
    | nil => simp [atMost]
    | cons b bs =>
      rw [atMost, List.map_cons, List.map_cons, List.cons_lt_cons_iff]
      by_cases hab : a = b
      · subst hab
        simp [ih]
      · -- the first characters decide
        have hcode : a.toNat ≠ b.toNat := fun h => hab (Char.toNat_inj.mp h)
        simp only [if_neg hab, decide_eq_true_iff, hcode.symm, false_and, or_false, not_lt]
        omega

/-! ### Sorting -/

theorem sort_perm (texts : List String) : (sort texts).Perm texts := List.mergeSort_perm _ _

theorem inOrder_sort (texts : List String) : InOrder (sort texts) := by
  have htrans : ∀ a b c : String, atMost a.toList b.toList = true →
      atMost b.toList c.toList = true → atMost a.toList c.toList = true := by
    intro a b c
    rw [atMost_iff, atMost_iff, atMost_iff]
    exact le_trans
  have htotal : ∀ a b : String,
      (atMost a.toList b.toList || atMost b.toList a.toList) = true := by
    intro a b
    rw [Bool.or_eq_true, atMost_iff, atMost_iff]
    exact le_total _ _
  apply (List.pairwise_mergeSort htrans htotal texts).imp
  intro a b h
  exact (atMost_iff _ _).mp h

/-- There is one way only to put texts in order. -/
theorem InOrder.eq_of_perm {texts texts' : List String} (h : InOrder texts) (h' : InOrder texts')
    (hperm : texts.Perm texts') : texts = texts' := by
  refine hperm.eq_of_pairwise ?_ h h'
  intro a b _ _ hab hba
  exact codes_injective (le_antisymm hab hba)

theorem eq_sort {texts sorted : List String} (hperm : sorted.Perm texts) (h : InOrder sorted) :
    sorted = sort texts :=
  h.eq_of_perm (inOrder_sort texts) (hperm.trans (sort_perm texts).symm)

/-- Sorting does not depend on how the texts were arranged. -/
theorem sort_eq_of_perm {texts texts' : List String} (h : texts.Perm texts') :
    sort texts = sort texts' :=
  eq_sort ((sort_perm texts).trans h) (inOrder_sort texts)

end Text

/-! ### The command -/

open Routine

theorem exchanges_sort (evaluate : String → Routine Unit) (bound : Nat) (v : Value) :
    Exchanges (execute evaluate bound "sort") [v]
      [.ofTexts (Text.sort (v.toList.map Value.toText))] :=
  .execute (c := .operator .sort) (.of_run fun _ => rfl)

/-- **Sorting gives a canonical form.**  Any value is replaced by a list of the
texts of its elements, each as often as it occurs, in the order of the codes of
their characters.  There is no other such list, the elements may be arranged in
any way, and sorting once more changes nothing. -/
theorem execute_sort (v : Value) (evaluate : String → Routine Unit) (bound : Nat) :
    let sort := execute evaluate bound "sort"
    ∃ texts : List String, Exchanges sort [v] [.ofTexts texts] ∧
      texts.Perm (v.toList.map Value.toText) ∧ Text.InOrder texts ∧
      (∀ others : List String, others.Perm (v.toList.map Value.toText) → Text.InOrder others →
        others = texts) ∧
      (∀ w : Value, w.toList.Perm v.toList → Exchanges sort [w] [.ofTexts texts]) ∧
      Exchanges sort [.ofTexts texts] [.ofTexts texts] := by
  intro sort
  have hperm := Text.sort_perm (v.toList.map Value.toText)
  refine ⟨_, exchanges_sort evaluate bound v, hperm, Text.inOrder_sort _,
    fun others => Text.eq_sort, fun w hw => ?_, ?_⟩
  · have hw' := exchanges_sort evaluate bound w
    rwa [Text.sort_eq_of_perm (hw.map Value.toText)] at hw'
  · have hagain := exchanges_sort evaluate bound
      (.ofTexts (Text.sort (v.toList.map Value.toText)))
    rwa [Value.toTexts_ofTexts, Text.sort_eq_of_perm hperm] at hagain

/-- Elements of several kinds, one of them twice, in both directions.  Of the last
two characters the second needs more than sixteen bits. -/
theorem execute_sort_mixed :
    let items : List Value :=
      [.text "𐀀", .text "～", .truth true, .list [], .truth true, .text ""]
    let sorted : Value := .ofTexts ["", "[]", "true", "true", "～", "𐀀"]
    let sort := execute (evaluate 1) 1 "sort"
    items.reverse.Perm items ∧ Exchanges sort [.list items] [sorted] ∧
      Exchanges sort [.list items.reverse] [sorted] ∧ Exchanges sort [sorted] [sorted] := by
  intro items sorted sort
  obtain ⟨texts, hsort, -, -, hunique, hall, hagain⟩ := execute_sort (.list items) (evaluate 1) 1
  have hperm : items.reverse.Perm items := List.reverse_perm items
  obtain rfl : ["", "[]", "true", "true", "～", "𐀀"] = texts := by
    apply hunique
    · decide +kernel
    · unfold Text.InOrder
      decide +kernel
  exact ⟨hperm, hsort, hall (.list items.reverse) hperm, hagain⟩

end ReversePolish
