/-
ReversePolish/Proofs/Search.lean

What it means to cut a text at a pattern, without the pass that does it.  A
text with no match is its only piece; otherwise the first piece reaches to the
first match, and the rest is cut in the same way (`Text.Cuts`).  For a pattern
that is not empty there is exactly one such cutting, and `pieces` computes it
(`Text.cuts_pieces`, `Text.Cuts.unique`).

All that splitting, joining, replacing and finding have to do with each other
follows from that.  The empty pattern is cut by a rule of its own, and the
same equations hold of it.
-/
import Mathlib.Data.List.Infix
import ReversePolish.Text.Search

namespace ReversePolish.Text

/-! ### First matches -/

/-- A pattern occurs in a text if it stands somewhere in it. -/
theorem occurs_iff {pattern cs : List Char} : occurs pattern cs = true ↔ pattern <:+: cs := by
  induction cs with
  | nil => rw [occurs, List.isEmpty_iff, List.infix_nil]
  | cons c rest ih =>
    rw [occurs, Bool.or_eq_true, List.isPrefixOf_iff_prefix, ih, List.infix_cons_iff]

section First

variable {pattern piece : List Char}

/-- After the piece comes the first match of the pattern: it stands nowhere
earlier in the two together. -/
def FirstAfter (pattern piece : List Char) : Prop :=
  ∀ before after, piece ++ pattern = before ++ pattern ++ after → before = piece

theorem firstAfter_nil (pattern : List Char) : FirstAfter pattern [] := by
  intro before after h
  have hlength := congrArg List.length h
  simp only [List.length_append, List.length_nil] at hlength
  exact List.eq_nil_of_length_eq_zero (by omega)

/-- One more character in front, where the pattern does not stand either. -/
theorem FirstAfter.cons (h : FirstAfter pattern piece) {c : Char}
    (hc : ¬pattern <+: c :: (piece ++ pattern)) : FirstAfter pattern (c :: piece) := by
  intro before after heq
  cases before with
  | nil =>
    rw [List.nil_append, List.cons_append] at heq
    exact absurd ⟨after, heq.symm⟩ hc
  | cons b before =>
    simp only [List.cons_append, List.cons.injEq] at heq
    obtain ⟨rfl, heq⟩ := heq
    rw [h before after heq]

/-- There is no match inside the piece. -/
theorem FirstAfter.unmatched (h : FirstAfter pattern piece) (hne : pattern ≠ []) :
    ¬pattern <:+: piece := by
  rintro ⟨before, after, hpiece⟩
  have hbefore : before = piece := by
    apply h before (after ++ pattern)
    rw [← hpiece, List.append_assoc, List.append_assoc]
  have hlength := congrArg List.length hpiece
  have hpos : 0 < pattern.length := List.length_pos_iff.mpr hne
  rw [hbefore] at hlength
  simp only [List.length_append] at hlength
  omega

/-- A character that a text lacks is first found after it. -/
theorem firstAfter_char {c : Char} (h : c ∉ piece) : FirstAfter [c] piece := by
  induction piece with
  | nil => exact firstAfter_nil [c]
  | cons d piece ih =>
    obtain ⟨hd, hpiece⟩ := not_or.mp (mt List.mem_cons.mpr h)
    refine (ih hpiece).cons fun hstarts => hd ?_
    exact (List.cons_prefix_cons.mp hstarts).1

/-- Two first matches in one text are the same. -/
theorem FirstAfter.unique {piece' rest rest' : List Char} (h : FirstAfter pattern piece)
    (h' : FirstAfter pattern piece')
    (heq : piece ++ pattern ++ rest = piece' ++ pattern ++ rest') : piece = piece' := by
  have hstarts : piece ++ pattern <+: piece' ++ pattern ++ rest' := ⟨rest, heq⟩
  have hstarts' : piece' ++ pattern <+: piece' ++ pattern ++ rest' := ⟨rest', rfl⟩
  -- the longer of the two has the match of the shorter one in it
  rcases List.prefix_or_prefix_of_prefix hstarts hstarts' with ⟨after, hafter⟩ | ⟨after, hafter⟩
  · exact h' piece after hafter.symm
  · exact (h piece' after hafter.symm).symm

end First

/-! ### Cuttings -/

/-- The pieces of a text, cut at each match from left to right. -/
inductive Cuts (pattern : List Char) : List Char → List (List Char) → Prop
  | whole {cs} : ¬pattern <:+: cs → Cuts pattern cs [cs]
  | first {piece rest cut} : FirstAfter pattern piece → Cuts pattern rest cut →
      Cuts pattern (piece ++ pattern ++ rest) (piece :: cut)

namespace Cuts

variable {pattern cs : List Char} {cut : List (List Char)}

theorem ne_nil (h : Cuts pattern cs cut) : cut ≠ [] := by
  cases h <;> exact List.cons_ne_nil _ _

/-- The pattern between the pieces gives the text back. -/
theorem intercalate_eq (h : Cuts pattern cs cut) : pattern.intercalate cut = cs := by
  induction h with
  | whole _ => exact List.intercalate_singleton
  | first _ hrest ih => rw [List.intercalate_cons_of_ne_nil hrest.ne_nil, ih]

theorem one_lt_length_iff (h : Cuts pattern cs cut) : 1 < cut.length ↔ pattern <:+: cs := by
  cases h with
  | whole hnone => simpa using hnone
  | first _ hrest =>
    have hpos := List.length_pos_iff.mpr hrest.ne_nil
    constructor
    · intro _
      exact List.infix_append _ _ _
    · intro _
      rw [List.length_cons]
      omega

theorem unmatched (h : Cuts pattern cs cut) (hne : pattern ≠ []) :
    ∀ piece ∈ cut, ¬pattern <:+: piece := by
  induction h with
  | whole hnone => simpa using hnone
  | first hfirst _ ih => exact List.forall_mem_cons.mpr ⟨hfirst.unmatched hne, ih⟩

theorem firstAfter (h : Cuts pattern cs cut) : ∀ piece ∈ cut.dropLast, FirstAfter pattern piece := by
  induction h with
  | whole _ => nofun
  | first hfirst hrest ih =>
    rw [List.dropLast_cons_of_ne_nil hrest.ne_nil]
    exact List.forall_mem_cons.mpr ⟨hfirst, ih⟩

/-- A text has one cutting only. -/
theorem unique {cut' : List (List Char)} (h : Cuts pattern cs cut) (h' : Cuts pattern cs cut') :
    cut = cut' := by
  induction h generalizing cut' with
  | whole hnone =>
    cases h' with
    | whole _ => rfl
    | first _ _ => exact absurd (List.infix_append _ _ _) hnone
  | @first piece rest cut hfirst _ ih =>
    generalize hcs : piece ++ pattern ++ rest = cs at h'
    cases h' with
    | whole hnone =>
      rw [← hcs] at hnone
      exact absurd (List.infix_append _ _ _) hnone
    | first hfirst' hrest' =>
      obtain rfl := hfirst.unique hfirst' hcs
      obtain rfl := List.append_cancel_left hcs
      rw [ih hrest']

/-- One more character in front of the first piece. -/
theorem cons (h : Cuts pattern cs cut) {c : Char} (hc : ¬pattern <+: c :: cs) :
    Cuts pattern (c :: cs) (cut.modifyHead (c :: ·)) := by
  cases h with
  | whole hnone =>
    refine .whole fun hstands => ?_
    rcases List.infix_cons_iff.mp hstands with hstarts | hstands
    · exact hc hstarts
    · exact hnone hstands
  | @first piece rest cut hfirst hrest =>
    refine .first (hfirst.cons fun hstarts => hc ?_) hrest
    exact hstarts.trans ⟨rest, rfl⟩

/-- Texts without a certain character, with that character between them. -/
theorem of_char {c : Char} {texts : List (List Char)} (hne : texts ≠ [])
    (h : ∀ text ∈ texts, c ∉ text) : Cuts [c] ([c].intercalate texts) texts := by
  induction texts with
  | nil => exact absurd rfl hne
  | cons text texts ih =>
    obtain ⟨htext, htexts⟩ := List.forall_mem_cons.mp h
    cases texts with
    | nil =>
      rw [List.intercalate_singleton]
      exact .whole fun hstands => htext (hstands.subset List.mem_cons_self)
    | cons next texts =>
      rw [List.intercalate_cons_cons]
      exact .first (firstAfter_char htext) (ih (List.cons_ne_nil _ _) htexts)

end Cuts

/-! ### The pass that cuts -/

section Pieces

variable {pattern : List Char}

theorem pieces_ne_nil (pattern : List Char) (skip : Nat) (cs : List Char) :
    pieces pattern skip cs ≠ [] := by
  fun_induction pieces pattern skip cs with
  | case1 => exact List.cons_ne_nil _ _
  | case2 _ _ _ ih => exact ih
  | case3 => exact List.cons_ne_nil _ _
  | case4 _ _ _ ih => simpa using ih

/-- Characters of a match already taken out are passed over. -/
theorem pieces_skip (pattern : List Char) (skip : Nat) (cs : List Char) :
    pieces pattern skip cs = pieces pattern 0 (cs.drop skip) := by
  induction skip generalizing cs with
  | zero => rfl
  | succ skip ih =>
    cases cs with
    | nil => rfl
    | cons c cs => exact ih cs

theorem pieces_append (hne : pattern ≠ []) (rest : List Char) :
    pieces pattern 0 (pattern ++ rest) = [] :: pieces pattern 0 rest := by
  obtain ⟨c, tail, rfl⟩ := List.exists_cons_of_ne_nil hne
  have hstarts : (c :: tail).isPrefixOf (c :: (tail ++ rest)) = true :=
    List.isPrefixOf_iff_prefix.mpr (List.prefix_append (c :: tail) rest)
  rw [List.cons_append, pieces, if_pos hstarts, pieces_skip, List.length_cons,
    Nat.add_sub_cancel, List.drop_left]

theorem pieces_cons {c : Char} {rest : List Char} (h : ¬pattern <+: c :: rest) :
    pieces pattern 0 (c :: rest) = (pieces pattern 0 rest).modifyHead (c :: ·) := by
  rw [pieces, if_neg (fun hstarts => h (List.isPrefixOf_iff_prefix.mp hstarts))]

/-- The pass cuts at the first match and goes on behind it.  The induction is
on the length of the text, since a match is passed over as a whole. -/
theorem cuts_pieces (hne : pattern ≠ []) (cs : List Char) : Cuts pattern cs (pieces pattern 0 cs) := by
  induction hlength : cs.length using Nat.strong_induction_on generalizing cs with
  | _ length ih =>
    cases cs with
    | nil =>
      refine .whole fun hstands => hne ?_
      exact List.infix_nil.mp hstands
    | cons c rest =>
      by_cases hstarts : pattern <+: c :: rest
      · obtain ⟨behind, hbehind⟩ := hstarts
        have hpos : 0 < pattern.length := List.length_pos_iff.mpr hne
        have hshorter : behind.length < length := by
          rw [← hlength, ← hbehind, List.length_append]
          omega
        rw [← hbehind, pieces_append hne]
        exact .first (firstAfter_nil pattern) (ih behind.length hshorter behind rfl)
      · rw [pieces_cons hstarts]
        exact (ih rest.length (by rw [← hlength]; exact Nat.lt_succ_self _) rest rfl).cons hstarts

/-- To write another text for each match is to write it between the pieces:
both passes move in step. -/
theorem substitute_eq (pattern after : List Char) (skip : Nat) (cs : List Char) :
    substitute pattern after skip cs = after.intercalate (pieces pattern skip cs) := by
  fun_induction pieces pattern skip cs with
  | case1 => rw [substitute, List.intercalate_singleton]
  | case2 skip c rest ih => rw [substitute, ih]
  | case3 c rest hstarts ih =>
    rw [substitute, if_pos hstarts, ih, List.intercalate_cons_of_ne_nil (pieces_ne_nil _ _ _),
      List.nil_append]
  | case4 c rest hstarts ih =>
    rw [substitute, if_neg hstarts, ih]
    obtain ⟨piece, cut, hcut⟩ := List.exists_cons_of_ne_nil (pieces_ne_nil pattern 0 rest)
    rw [hcut, List.modifyHead_cons]
    cases cut with
    | nil => simp only [List.intercalate_singleton]
    | cons next cut => simp only [List.intercalate_cons_cons, List.cons_append]

end Pieces

/-! ### Strings -/

section Strings

variable {text delimiter : String}

theorem toList_join (delimiter : String) (pieces : List String) :
    (join delimiter pieces).toList = delimiter.toList.intercalate (pieces.map String.toList) :=
  String.toList_intercalate

/-- The pieces of a text at a delimiter that is not empty. -/
theorem cuts_split (text : String) (h : delimiter ≠ "") :
    Cuts delimiter.toList text.toList ((split text delimiter).map String.toList) := by
  have hne : delimiter.toList ≠ [] := fun hnil => h (String.toList_eq_nil_iff.mp hnil)
  have hcut : (split text delimiter).map String.toList = pieces delimiter.toList 0 text.toList := by
    simp [split, h, Function.comp_def]
  rw [hcut]
  exact cuts_pieces hne _

theorem split_empty (text : String) :
    split text "" = "" :: text.toList.map String.singleton ++ [""] := rfl

/-- The characters of a text with another text before, between and after
them. -/
theorem toList_join_split_empty (text after : String) :
    (join after (split text "")).toList =
      after.toList ++ text.toList.flatMap fun c => c :: after.toList := by
  rw [toList_join, split_empty]
  simp only [List.cons_append, List.map_cons, List.map_append, List.map_map, List.map_nil,
    Function.comp_def, String.toList_singleton, String.toList_empty]
  rw [List.intercalate_cons_of_ne_nil (by simp), List.nil_append]
  congr 1
  induction text.toList with
  | nil => rfl
  | cons c cs ih =>
    rw [List.map_cons, List.cons_append, List.intercalate_cons_of_ne_nil (by simp), ih]
    simp

/-- A replacement is written between the pieces. -/
theorem replace_eq (text before after : String) :
    replace text before after = join after (split text before) := by
  apply String.toList_injective
  by_cases h : before = ""
  · subst h
    rw [toList_join_split_empty]
    exact String.toList_ofList
  · have hne : before.toList ≠ [] := fun hnil => h (String.toList_eq_nil_iff.mp hnil)
    rw [replace, if_neg hne, String.toList_ofList, substitute_eq, toList_join, split, if_neg hne]
    simp [Function.comp_def]

theorem join_split (text delimiter : String) : join delimiter (split text delimiter) = text := by
  apply String.toList_injective
  by_cases h : delimiter = ""
  · subst h
    rw [toList_join_split_empty]
    simp
  · rw [toList_join, (cuts_split text h).intercalate_eq]

theorem contains_iff (text delimiter : String) :
    contains text delimiter = true ↔ 1 < (split text delimiter).length := by
  rw [contains, occurs_iff]
  by_cases h : delimiter = ""
  · subst h
    simp [split_empty]
  · rw [← (cuts_split text h).one_lt_length_iff, List.length_map]

/-- Texts that lack a character are the pieces of their join by it. -/
theorem split_join {c : Char} {texts : List String} (hne : texts ≠ [])
    (h : ∀ text ∈ texts, c ∉ text.toList) :
    split (join (String.singleton c) texts) (String.singleton c) = texts := by
  have hdelimiter : String.singleton c ≠ "" := by simp
  have hcut := cuts_split (join (String.singleton c) texts) hdelimiter
  rw [toList_join, String.toList_singleton] at hcut
  have hchar : Cuts [c] ([c].intercalate (texts.map String.toList)) (texts.map String.toList) := by
    refine .of_char (by simpa using hne) fun text htext => ?_
    obtain ⟨s, hs, rfl⟩ := List.mem_map.mp htext
    exact h s hs
  exact List.map_injective_iff.mpr (fun _ _ => String.toList_injective) (hcut.unique hchar)

end Strings

end ReversePolish.Text
