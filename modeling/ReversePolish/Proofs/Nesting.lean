/-
ReversePolish/Proofs/Nesting.lean

How a scan passes over a stretch of characters.

Two things decide what a stretch does to the tokens around it: the nesting it
leaves behind (`Nesting.after`), and whether a space inside it ends a token
(`Nesting.Unbroken` says that none does).  A stretch that leads from the
outermost level back to it is *closed*; one that is not empty and not broken
is *solid*.

Main results: a closed text and whatever follows it after a space are
tokenized apart (`tokenize_append`), and solid closed texts with single spaces
between them are the tokens of their join (`tokenize_join`).
-/
import ReversePolish.Token

namespace ReversePolish

namespace Nesting

/-! ### What a stretch leaves behind -/

/-- The nesting after a stretch of characters. -/
def after (level : Nesting) (cs : List Char) : Nesting := cs.foldl step level

@[simp] theorem after_nil (level : Nesting) : level.after [] = level := rfl

@[simp] theorem after_cons (level : Nesting) (c : Char) (cs : List Char) :
    level.after (c :: cs) = (level.step c).after cs := rfl

@[simp] theorem after_append (level : Nesting) (cs ds : List Char) :
    level.after (cs ++ ds) = (level.after cs).after ds :=
  List.foldl_append

/-- A character that opens and closes nothing leaves the nesting alone. -/
theorem step_of_plain {level : Nesting} {c : Char}
    (hc : c ∉ ['(', ')', '#', '[', ']']) : level.step c = level := by
  simp only [List.mem_cons, List.not_mem_nil, or_false, not_or] at hc
  obtain ⟨h₁, h₂, h₃, h₄, h₅⟩ := hc
  simp [step, h₁, h₂, h₃, h₄, h₅]

/-- A white character in its plain form nests as before. -/
theorem step_plainSpace (level : Nesting) (c : Char) :
    level.step (plainSpace c) = level.step c := by
  unfold plainSpace
  split
  · -- neither the white character nor the space opens or closes anything
    rename_i hc
    have hwhite : level.step c = level :=
      step_of_plain (by rcases hc with rfl | rfl | rfl | rfl <;> decide)
    rw [hwhite, step_of_plain (by decide)]
  · rfl

theorem after_map_plainSpace (level : Nesting) (cs : List Char) :
    level.after (cs.map plainSpace) = level.after cs := by
  induction cs generalizing level with
  | nil => rfl
  | cons c cs ih => rw [List.map_cons, after_cons, after_cons, step_plainSpace, ih]

/-! ### Stretches that stay in one token -/

/-- No space of the stretch stands at the outermost level. -/
def Unbroken (level : Nesting) : List Char → Prop
  | [] => True
  | c :: cs => ¬(c = ' ' ∧ level = outermost) ∧ Unbroken (level.step c) cs

@[simp] theorem unbroken_nil (level : Nesting) : level.Unbroken [] := trivial

@[simp] theorem unbroken_cons {level : Nesting} {c : Char} {cs : List Char} :
    level.Unbroken (c :: cs) ↔ ¬(c = ' ' ∧ level = outermost) ∧ (level.step c).Unbroken cs :=
  Iff.rfl

@[simp] theorem unbroken_append {level : Nesting} {cs ds : List Char} :
    level.Unbroken (cs ++ ds) ↔ level.Unbroken cs ∧ (level.after cs).Unbroken ds := by
  induction cs generalizing level with
  | nil => simp
  | cons c cs ih => simp [ih, and_assoc]

/-- A stretch that leads from the outermost level back to it. -/
def Closed (cs : List Char) : Prop := outermost.after cs = outermost

instance (cs : List Char) : Decidable (Closed cs) :=
  inferInstanceAs (Decidable (outermost.after cs = outermost))

/-- A stretch that makes a token of its own. -/
def Solid (cs : List Char) : Prop := cs ≠ [] ∧ outermost.Unbroken cs

end Nesting

/-! ### The scan -/

open Nesting

/-- An unbroken stretch goes into the token under way. -/
theorem scan_append_of_unbroken {level : Nesting} {cs : List Char} (h : level.Unbroken cs)
    (buffer rest : List Char) :
    scan level buffer (cs ++ rest) = scan (level.after cs) (cs.reverse ++ buffer) rest := by
  induction cs generalizing level buffer with
  | nil => rfl
  | cons c cs ih =>
    obtain ⟨hc, hcs⟩ := unbroken_cons.mp h
    rw [List.cons_append, scan, if_neg hc, ih hcs, after_cons, List.reverse_cons, List.append_assoc]
    rfl

/-- Where a stretch ends at the outermost level, a space after it ends its
last token, and the scan starts afresh. -/
theorem scan_append_space {level : Nesting} {cs : List Char} (h : level.after cs = outermost)
    (buffer rest : List Char) :
    scan level buffer (cs ++ ' ' :: rest) = scan level buffer cs ++ scan outermost [] rest := by
  induction cs generalizing level buffer with
  | nil =>
    obtain rfl : level = outermost := h
    rw [List.nil_append, scan, scan, if_pos ⟨rfl, rfl⟩]
    -- an empty buffer makes no token, on either side
    cases buffer with
    | nil => rfl
    | cons c buffer => rfl
  | cons c cs ih =>
    rw [List.cons_append, scan, scan]
    split
    · -- a space at the outermost level, which it leaves alone
      rename_i hc
      obtain ⟨rfl, rfl⟩ := hc
      have hrest : outermost.after cs = outermost := h
      split
      · exact ih hrest []
      · rw [ih hrest [], List.cons_append]
    · exact ih h (c :: buffer)

/-- A solid text is a token. -/
theorem scan_of_solid {cs : List Char} (h : Solid cs) : scan outermost [] cs = [cs] := by
  have hscan := scan_append_of_unbroken h.2 [] []
  rw [List.append_nil, List.append_nil] at hscan
  rw [hscan, scan, List.reverse_reverse]
  have hne : cs.reverse.isEmpty = false := by
    rw [List.isEmpty_reverse]
    exact List.isEmpty_eq_false_iff.mpr h.1
  rw [hne]
  rfl

/-! ### Tokens -/

/-- A closed text is tokenized apart from what follows it after a space. -/
theorem tokenize_append {p : String} (h : Closed p.toList) (q : String) :
    tokenize (p ++ " " ++ q) = tokenize p ++ tokenize q := by
  have hp : outermost.after (p.toList.map plainSpace) = outermost := by
    rw [after_map_plainSpace]
    exact h
  have hchars : (p ++ " " ++ q).toList.map plainSpace =
      p.toList.map plainSpace ++ ' ' :: q.toList.map plainSpace := by
    simp [plainSpace]
  simp only [tokenize, hchars, scan_append_space hp, List.map_append]

/-- A text that is one token as it stands. -/
structure Lone (token : String) : Prop where
  plain : ∀ c ∈ token.toList, plainSpace c = c
  solid : Solid token.toList
  closed : Closed token.toList

theorem map_plainSpace_of_plain {cs : List Char} (h : ∀ c ∈ cs, plainSpace c = c) :
    cs.map plainSpace = cs :=
  (List.map_congr_left h).trans (List.map_id' _)

/-- A solid text is a token, also if it leaves something open. -/
theorem tokenize_of_solid {token : String} (hplain : ∀ c ∈ token.toList, plainSpace c = c)
    (hsolid : Solid token.toList) : tokenize token = [token] := by
  rw [tokenize, map_plainSpace_of_plain hplain, scan_of_solid hsolid, List.map_singleton,
    String.ofList_toList]

theorem tokenize_of_lone {token : String} (h : Lone token) : tokenize token = [token] :=
  tokenize_of_solid h.plain h.solid

/-- Lone tokens with a space between each two are the tokens of their join. -/
theorem tokenize_join {tokens : List String} (h : ∀ t ∈ tokens, Lone t) :
    tokenize (String.intercalate " " tokens) = tokens := by
  induction tokens with
  | nil => rfl
  | cons t rest ih =>
    have ht : Lone t := h t List.mem_cons_self
    have hrest : ∀ u ∈ rest, Lone u := fun u hu => h u (List.mem_cons_of_mem t hu)
    cases rest with
    | nil => rw [String.intercalate_singleton, tokenize_of_lone ht]
    | cons u us =>
      rw [String.intercalate_cons_cons, tokenize_append ht.closed, tokenize_of_lone ht, ih hrest]
      rfl

end ReversePolish
