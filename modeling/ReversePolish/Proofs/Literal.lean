/-
ReversePolish/Proofs/Literal.lean

Display forms as literals.  The display form of a value is a single token, and
that token is the literal of its kind, provided the texts in the value can be
quoted: no white character that the scan would change, hash marks in pairs,
and parentheses that match.

A form has to stand inside the brackets of a list as well as on its own.
`Nesting.Steady` is the property that carries through the induction: from
every level outside parentheses and hash marks that is not overclosed, the
form leads back to that level and is not broken on the way.
-/
import Mathlib.Data.List.Infix
import Mathlib.Data.Nat.Bits
import ReversePolish.Proofs.Nesting
import ReversePolish.Proofs.Numeral
import ReversePolish.Proofs.Value

namespace ReversePolish

/-! ### Texts that can be quoted -/

/-- A text that comes back unchanged from between parentheses. -/
structure Quotable (s : String) : Prop where
  unspaced : ∀ c ∈ s.toList, c ∉ ['\t', '\n', '\r', '\u3000']
  paired : s.toList.count '#' % 2 = 0
  opened : ∀ cs, cs <+: s.toList → cs.count ')' ≤ cs.count '('
  balanced : s.toList.count '(' = s.toList.count ')'

namespace Nesting

/-! ### Steady stretches -/

/-- A level at which the elements of a list, or of a whole program, stand. -/
structure Open (level : Nesting) : Prop where
  parens : level.parens = 0
  brackets : 0 ≤ level.brackets
  hash : level.hash = false

theorem open_outermost : Open outermost := ⟨rfl, Int.le_refl 0, rfl⟩

/-- A stretch that may stand between two others wherever elements may. -/
def Steady (cs : List Char) : Prop :=
  ∀ level : Nesting, level.Open → level.after cs = level ∧ level.Unbroken cs

/-- A stretch without spaces and marks is steady. -/
theorem steady_of_plain {cs : List Char} (h : ∀ c ∈ cs, c ∉ [' ', '(', ')', '#', '[', ']']) :
    Steady cs := by
  intro level hopen
  induction cs with
  | nil => exact ⟨rfl, trivial⟩
  | cons c cs ih =>
    have hc := h c List.mem_cons_self
    obtain ⟨hafter, hunbroken⟩ := ih fun d hd => h d (List.mem_cons_of_mem c hd)
    have hstep : level.step c = level :=
      step_of_plain fun hmark => hc (List.mem_cons_of_mem _ hmark)
    have hspace : c ≠ ' ' := fun hspace => hc (hspace ▸ List.mem_cons_self)
    rw [after_cons, unbroken_cons, hstep]
    exact ⟨hafter, fun hbreak => hspace hbreak.1, hunbroken⟩

/-- Inside a parenthesis only parentheses and hash marks count. -/
theorem step_inside {level : Nesting} (h : level.parens ≠ 0) (c : Char) :
    level.step c =
      { level with
        parens := level.parens + [c].count '(' - [c].count ')'
        hash := level.hash ^^ ([c].count '#').bodd } := by
  by_cases hl : c = '('
  · subst hl
    simp [step]
  by_cases hr : c = ')'
  · subst hr
    simp [step]
  by_cases hh : c = '#'
  · subst hh
    simp [step]
  simp [step, hl, hr, hh, h]

/-- As long as the parenthesis is not closed, so does a whole stretch. -/
theorem after_inside {cs : List Char} {depth : Nat} {level : Nesting}
    (hdepth : level.parens = depth + 1)
    (hopened : ∀ ds, ds <+: cs → ds.count ')' ≤ depth + ds.count '(') :
    level.after cs =
        { level with
          parens := level.parens + cs.count '(' - cs.count ')'
          hash := level.hash ^^ (cs.count '#').bodd } ∧
      level.Unbroken cs := by
  induction cs generalizing depth level with
  | nil => simp
  | cons c cs ih =>
    have hstep := step_inside (show level.parens ≠ 0 by omega) c
    have hsplit : ∀ (mark : Char) (ds : List Char),
        (c :: ds).count mark = [c].count mark + ds.count mark :=
      fun mark ds => @List.count_append _ _ mark [c] ds
    have hfirst : [c].count ')' ≤ depth + [c].count '(' :=
      hopened [c] (List.cons_prefix_cons.mpr ⟨rfl, List.nil_prefix⟩)
    -- the rest starts inside as many parentheses as `c` leaves open
    have hrest : (level.step c).parens = (depth + [c].count '(' - [c].count ')' : Nat) + 1 := by
      simp only [hstep, hdepth]
      omega
    obtain ⟨hafter, hunbroken⟩ := ih hrest fun ds hds => by
      have hcons := hopened (c :: ds) (List.cons_prefix_cons.mpr ⟨rfl, hds⟩)
      rw [hsplit ')' ds, hsplit '(' ds] at hcons
      omega
    have hlevel : level ≠ outermost := by
      rintro rfl
      simp only [outermost] at hdepth
      omega
    refine ⟨?_, fun hbreak => hlevel hbreak.2, hunbroken⟩
    rw [after_cons, hafter, hstep]
    simp only [hsplit _ cs, Nat.bodd_add, Nesting.mk.injEq, Bool.xor_assoc, and_true]
    omega

/-- Two marks that undo each other may stand around a stretch that keeps the
level between them. -/
theorem between_marks {level : Nesting} {first last : Char} {cs : List Char}
    (hafter : (level.step first).after cs = level.step first)
    (hunbroken : (level.step first).Unbroken cs) (hclose : (level.step first).step last = level)
    (hfirst : first ≠ ' ') (hlast : last ≠ ' ') :
    level.after (first :: cs ++ [last]) = level ∧ level.Unbroken (first :: cs ++ [last]) := by
  have hopened : level.after (first :: cs) = level.step first := by rw [after_cons, hafter]
  rw [after_append, unbroken_append, unbroken_cons, hopened, after_cons, hclose]
  exact ⟨rfl, ⟨fun hbreak => hfirst hbreak.1, hunbroken⟩, fun hbreak => hlast hbreak.1, trivial⟩

/-- A quotable text in parentheses is steady. -/
theorem steady_quoted {s : String} (h : Quotable s) : Steady ('(' :: s.toList ++ [')']) := by
  intro level hopen
  have hinside : (level.step '(').parens = (0 : Nat) + 1 := by
    show level.parens + 1 = _
    rw [hopen.parens]
    rfl
  obtain ⟨hafter, hunbroken⟩ := @after_inside s.toList 0 _ hinside fun cs hcs => by
    have := h.opened cs hcs
    omega
  -- an even number of hash marks switches the comment off again
  have heven : (s.toList.count '#').bodd = false := by
    have hmod := Nat.mod_two_of_bodd (s.toList.count '#')
    rw [h.paired] at hmod
    cases hodd : (s.toList.count '#').bodd with
    | false => rfl
    | true => simp [hodd] at hmod
  have hback : (level.step '(').after s.toList = level.step '(' := by
    rw [hafter, h.balanced, heven, Bool.xor_false]
    simp
  have hclose : (level.step '(').step ')' = level := by
    show { level with parens := level.parens + 1 - 1 } = level
    simp
  exact between_marks hback hunbroken hclose (by decide) (by decide)

/-- Steady stretches with a space between each two keep every level but the
outermost. -/
theorem join_steady {tokens : List String} (h : ∀ t ∈ tokens, Steady t.toList) {level : Nesting}
    (hopen : level.Open) (hlevel : level ≠ outermost) :
    level.after (String.intercalate " " tokens).toList = level ∧
      level.Unbroken (String.intercalate " " tokens).toList := by
  induction tokens with
  | nil => exact ⟨rfl, trivial⟩
  | cons t rest ih =>
    obtain ⟨hafter, hunbroken⟩ := h t List.mem_cons_self level hopen
    obtain ⟨ihafter, ihunbroken⟩ := ih fun u hu => h u (List.mem_cons_of_mem t hu)
    cases rest with
    | nil =>
      rw [String.intercalate_singleton]
      exact ⟨hafter, hunbroken⟩
    | cons u us =>
      have hspace : level.step ' ' = level := step_of_plain (by decide)
      have hchars : (String.intercalate " " (t :: u :: us)).toList =
          t.toList ++ ' ' :: (String.intercalate " " (u :: us)).toList := by
        rw [String.intercalate_cons_cons]
        simp
      rw [hchars, after_append, after_cons, unbroken_append, unbroken_cons, hafter, hspace]
      exact ⟨ihafter, hunbroken, fun hbreak => hlevel hbreak.2, ihunbroken⟩

/-- A list of steady stretches is steady. -/
theorem steady_bracketed {tokens : List String} (h : ∀ t ∈ tokens, Steady t.toList) :
    Steady ('[' :: (String.intercalate " " tokens).toList ++ [']']) := by
  intro level hopen
  have hopening : level.step '[' = ⟨0, level.brackets + 1, level.hash⟩ := by
    simp [step, hopen.parens]
  have hbrackets := hopen.brackets
  have hinner : (level.step '[').Open := by
    rw [hopening]
    exact ⟨rfl, Int.add_nonneg hbrackets (by decide), hopen.hash⟩
  -- a bracket is open, so the spaces between the elements end no token
  have hlevel : level.step '[' ≠ outermost := by
    rw [hopening]
    intro heq
    have : level.brackets + 1 = 0 := congrArg Nesting.brackets heq
    omega
  have hclose : (level.step '[').step ']' = level := by
    rw [hopening]
    obtain ⟨parens, brackets, hash⟩ := level
    obtain rfl : parens = 0 := hopen.parens
    simp [step]
  obtain ⟨hafter, hunbroken⟩ := join_steady h hinner hlevel
  exact between_marks hafter hunbroken hclose (by decide) (by decide)

end Nesting

open Nesting

/-! ### Display forms are single tokens -/

namespace Value

theorem display_steady {v : Value} (h : ∀ s ∈ v.texts, Quotable s) : Steady v.display.toList := by
  induction v with
  | number n =>
    apply steady_of_plain
    intro c hc
    rw [display] at hc
    rcases Number.mem_text hc with hdigit | hword
    · intro hmark
      have hnone : ∀ c ∈ [' ', '(', ')', '#', '[', ']'], c.isDigit = false :=
        forall_mem_of_all (by decide)
      rw [hnone c hmark] at hdigit
      cases hdigit
    · have hnone : ∀ c ∈ ['.', '-', 'N', 'a', 'i', 'n', 'f'], c ∉ [' ', '(', ')', '#', '[', ']'] :=
        forall_mem_of_all (by decide)
      exact hnone c hword
  | text s =>
    rw [toList_display_text]
    exact steady_quoted (h s (by simp))
  | truth b =>
    cases b with
    | true => exact steady_of_plain (forall_mem_of_all (by decide))
    | false => exact steady_of_plain (forall_mem_of_all (by decide))
  | list items ih =>
    rw [toList_display_list]
    apply steady_bracketed
    intro t ht
    obtain ⟨item, hitem, rfl⟩ := List.mem_map.mp ht
    refine ih item hitem fun s hs => h s ?_
    rw [texts_list]
    exact List.mem_flatMap.mpr ⟨item, hitem, hs⟩

/-- The scan changes no character of a display form. -/
theorem display_plain {v : Value} (h : ∀ s ∈ v.texts, Quotable s) {c : Char}
    (hc : c ∈ v.display.toList) : plainSpace c = c := by
  have hwhite : c ∉ ['\t', '\n', '\r', '\u3000'] := by
    rcases mem_display hc with ⟨s, hs, hc⟩ | hshown
    · exact (h s hs).unspaced c hc
    · have hnone : ∀ c ∈ ['\t', '\n', '\r', '\u3000'], ¬AsciiShown c :=
        forall_mem_of_all (by decide)
      exact fun hmem => hnone c hmem hshown
  simp only [List.mem_cons, List.not_mem_nil, or_false] at hwhite
  exact if_neg hwhite

theorem display_ne_nil (v : Value) : v.display.toList ≠ [] := by
  cases v with
  | number n =>
    rw [display]
    intro hnil
    obtain ⟨numeral, hnumeral⟩ := n.exists_numeral_text
    have hnone : Numeral.parse? [] = none := by decide
    rw [hnil, hnone] at hnumeral
    cases hnumeral
  | text s => rw [toList_display_text]; simp
  | truth b => cases b <;> decide
  | list items => rw [toList_display_list]; simp

/-- The display form of a value is a token of its own. -/
theorem display_lone {v : Value} (h : ∀ s ∈ v.texts, Quotable s) : Lone v.display := by
  obtain ⟨hclosed, hunbroken⟩ := display_steady h outermost open_outermost
  exact ⟨fun c hc => display_plain h hc, ⟨v.display_ne_nil, hunbroken⟩, hclosed⟩

end Value

/-! ### Literals by their marks -/

/-- A text that starts with an opening mark is no numeral. -/
theorem Numeral.parse?_of_mark {first : Char} (h : first ∈ ['(', '[', '#']) (rest : List Char) :
    Numeral.parse? (first :: rest) = none := by
  simp only [List.mem_cons, List.not_mem_nil, or_false] at h
  have hsign : splitSign (first :: rest) = (false, first :: rest) := by
    rcases h with rfl | rfl | rfl <;> rfl
  have hdecimal : decimal? (first :: rest) = none := by
    rcases h with rfl | rfl | rfl <;> rfl
  have hword : ∀ word ∈ ["inf", "infinity", "nan"],
      String.ofList ((first :: rest).map Char.toLower) ≠ word := by
    intro word hword heq
    have hmem : first.toLower ∈ word.toList := by rw [← heq]; simp
    have hnone : ∀ c ∈ ['(', '[', '#'], ∀ word ∈ ["inf", "infinity", "nan"],
        c.toLower ∉ word.toList := forall_mem_of_all (by decide)
    exact hnone first (by simpa using h) word hword hmem
  simp only [parse?, hsign, hdecimal]
  rw [if_neg (not_or.mpr ⟨hword "inf" (by decide), hword "infinity" (by decide)⟩),
    if_neg (hword "nan" (by decide))]
  rfl

theorem Numeral.read_of_mark {first : Char} (h : first ∈ ['(', '[', '#']) {token : String}
    {rest : List Char} (ht : token.toList = first :: rest) : Numeral.read token = .other := by
  have hmarks : ∀ c ∈ ['(', '[', '#'], plainI c = c := forall_mem_of_all (by decide)
  have hplain : plainI first = first := hmarks first h
  rw [read, ht, List.map_cons, hplain, parse?_of_mark h, parse?_of_mark h]
  rfl

namespace Token

/-- The text between two marks is found again. -/
theorem inside?_of_toList {first last : Char} {token : String} {cs : List Char}
    (h : token.toList = first :: cs ++ [last]) :
    inside? first last token = some (String.ofList cs) := by
  obtain ⟨second, rest, hrest⟩ := List.exists_cons_of_ne_nil (List.concat_ne_nil last cs)
  rw [List.cons_append, hrest] at h
  simp only [inside?, h]
  rw [← hrest]
  simp

/-- What is found between two marks makes up the token with them. -/
theorem toList_of_inside? {opening closing : Char} {token body : String}
    (h : inside? opening closing token = some body) :
    token.toList = opening :: body.toList ++ [closing] := by
  unfold inside? at h
  split at h
  · rename_i first second rest hchars
    dsimp only at h
    split at h
    · rename_i hmarks
      obtain ⟨rfl, hlast⟩ := hmarks
      obtain rfl := Option.some.inj h
      rw [hchars, String.toList_ofList, List.cons_append, List.dropLast_append_getLast? _ hlast]
    · cases h
  · cases h

theorem inside?_eq_none {first opening closing : Char} {token : String} {rest : List Char}
    (h : token.toList = first :: rest) (hne : first ≠ opening) :
    inside? opening closing token = none := by
  cases rest with
  | nil => simp [inside?, h]
  | cons second rest => simp [inside?, h, hne]

theorem ofText_number (n : Number) : ofText n.text = .number n.reread := by
  rw [ofText, n.read_text]

theorem ofText_truth (b : Bool) : ofText (Value.truth b).display = .truth b := by
  have hread : ∀ b, Numeral.read (Value.truth b).display = .other := by decide
  cases b with
  | true => rw [ofText, hread true]; rfl
  | false => rw [ofText, hread false]; rfl

/-- A token that starts with an opening mark is no number and no truth value. -/
theorem ofText_of_mark {first : Char} (h : first ∈ ['(', '[', '#']) {token : String}
    {rest : List Char} (ht : token.toList = first :: rest) :
    ofText token =
      match inside? '(' ')' token with
      | some inner => .text inner
      | none => match inside? '[' ']' token with
        | some body => .list body
        | none => .word token := by
  have hname : ∀ name ∈ ["true", "false"], token ≠ name := by
    intro name hname heq
    have hmem : first ∈ name.toList := by rw [← heq, ht]; exact List.mem_cons_self
    have hnone : ∀ c ∈ ['(', '[', '#'], ∀ name ∈ ["true", "false"], c ∉ name.toList :=
      forall_mem_of_all (by decide)
    exact hnone first h name hname hmem
  simp only [ofText, Numeral.read_of_mark h ht]
  exact (if_neg (hname "true" (by decide))).trans (if_neg (hname "false" (by decide)))

theorem ofText_quoted (s : String) : ofText (Value.text s).display = .text s := by
  have hchars := Value.toList_display_text s
  rw [ofText_of_mark (by decide) hchars, inside?_of_toList hchars, String.ofList_toList]

theorem ofText_bracketed (items : List Value) :
    ofText (Value.list items).display =
      .list (String.intercalate " " (items.map Value.display)) := by
  have hchars := Value.toList_display_list items
  rw [ofText_of_mark (by decide) hchars, inside?_eq_none hchars (by decide),
    inside?_of_toList hchars, String.ofList_toList]

end Token

end ReversePolish
