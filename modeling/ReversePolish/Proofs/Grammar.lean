/-
ReversePolish/Proofs/Grammar.lean

The grammar of tokens, without the scan.  A source, in plain spaces, is a gap
followed by tokens that have a gap each:

    gap₀ token₁ gap₁ token₂ gap₂ ... tokenₙ gapₙ

The gaps are runs of spaces, of which only the first and the last may be
empty.  The tokens are solid, and a token with a gap after it is closed; so
only the last token may be left open, and then it reaches to the end.

Main result: every source has exactly one such layout, and its tokens are
those that the scan finds (`tokenize_iff_layout`).  Nothing is assumed about
the nesting of the source: its depths may be negative or never return to the
outermost level.
-/
import ReversePolish.Proofs.Nesting

namespace ReversePolish

open Nesting

/-! ### Layouts -/

/-- A run of plain spaces. -/
def Gap (cs : List Char) : Prop := ∀ c ∈ cs, c = ' '

theorem Gap.cons {cs : List Char} (h : Gap cs) : Gap (' ' :: cs) :=
  List.forall_mem_cons.mpr ⟨rfl, h⟩

/-- A token and the gap after it. -/
structure Placed where
  token : List Char
  gap : List Char

def Placed.text (p : Placed) : List Char := p.token ++ p.gap

/-- The characters are a gap and then tokens in their places. -/
structure Layout (cs lead : List Char) (placed : List Placed) : Prop where
  text : cs = lead ++ placed.flatMap Placed.text
  lead : Gap lead
  gaps : ∀ p ∈ placed, Gap p.gap
  solid : ∀ p ∈ placed, Solid p.token
  /-- Only after the last token there may be no space. -/
  parted : ∀ p ∈ placed.dropLast, p.gap ≠ []
  /-- A space can only follow a token that leaves nothing open. -/
  closed : ∀ p ∈ placed, p.gap ≠ [] → Closed p.token

namespace Layout

variable {cs lead : List Char} {placed : List Placed}

theorem of_gap (h : Gap lead) : Layout lead lead [] where
  text := (List.append_nil lead).symm
  lead := h
  gaps := nofun
  solid := nofun
  parted := nofun
  closed := nofun

/-- A token that reaches to the end. -/
theorem of_solid {token : List Char} (h : Solid token) : Layout token [] [⟨token, []⟩] where
  text := by simp [Placed.text]
  lead := nofun
  gaps := by simp [Gap]
  solid := by simpa using h
  parted := nofun
  closed := by simp

/-- One more space in front. -/
theorem cons_space (h : Layout cs lead placed) : Layout (' ' :: cs) (' ' :: lead) placed :=
  { h with
    text := by rw [h.text, List.cons_append]
    lead := h.lead.cons }

/-- One more token in front, and a space after it. -/
theorem cons_token (h : Layout cs lead placed) {token : List Char} (hsolid : Solid token)
    (hclosed : Closed token) :
    Layout (token ++ ' ' :: cs) [] (⟨token, ' ' :: lead⟩ :: placed) where
  text := by rw [h.text]; simp [Placed.text]
  lead := nofun
  gaps := List.forall_mem_cons.mpr ⟨h.lead.cons, h.gaps⟩
  solid := List.forall_mem_cons.mpr ⟨hsolid, h.solid⟩
  parted := by
    cases placed with
    | nil => nofun
    | cons p rest => exact List.forall_mem_cons.mpr ⟨List.cons_ne_nil _ _, h.parted⟩
  closed := List.forall_mem_cons.mpr ⟨fun _ => hclosed, h.closed⟩

/-- What is left of a layout after its first token and the space there. -/
theorem tail {token gap : List Char}
    (h : Layout cs lead (⟨token, ' ' :: gap⟩ :: placed)) :
    Layout (gap ++ placed.flatMap Placed.text) gap placed where
  text := rfl
  lead := (List.forall_mem_cons.mp (List.forall_mem_cons.mp h.gaps).1).2
  gaps := (List.forall_mem_cons.mp h.gaps).2
  solid := (List.forall_mem_cons.mp h.solid).2
  parted := by
    cases placed with
    | nil => nofun
    | cons p rest => exact (List.forall_mem_cons.mp h.parted).2
  closed := (List.forall_mem_cons.mp h.closed).2

/-- A layout has each of its tokens in one piece. -/
theorem infix_of_mem {p : Placed} (h : Layout cs lead placed) (hp : p ∈ placed) :
    p.token <:+: cs := by
  obtain ⟨before, after, rfl⟩ := List.append_of_mem hp
  refine ⟨lead ++ before.flatMap Placed.text, p.gap ++ after.flatMap Placed.text, ?_⟩
  rw [h.text]
  simp [Placed.text]

end Layout

/-! ### Every text has a layout -/

/-- The buffer holds an unbroken stretch, and the rest is still to be read.
The induction is that of the scan: an unbroken buffer grows until a space is
met at the outermost level. -/
theorem exists_layout_append (buffer cs : List Char) (h : outermost.Unbroken buffer.reverse) :
    ∃ lead placed, Layout (buffer.reverse ++ cs) lead placed := by
  induction cs generalizing buffer with
  | nil =>
    rw [List.append_nil]
    by_cases hbuffer : buffer.reverse = []
    · rw [hbuffer]
      exact ⟨[], [], .of_gap nofun⟩
    · exact ⟨[], _, .of_solid ⟨hbuffer, h⟩⟩
  | cons c cs ih =>
    by_cases hspace : c = ' ' ∧ outermost.after buffer.reverse = outermost
    · obtain ⟨rfl, hclosed⟩ := hspace
      obtain ⟨lead, placed, hrest⟩ := ih [] trivial
      by_cases hbuffer : buffer.reverse = []
      · rw [hbuffer]
        exact ⟨_, _, hrest.cons_space⟩
      · exact ⟨_, _, hrest.cons_token ⟨hbuffer, h⟩ hclosed⟩
    · have hgrown : outermost.Unbroken (c :: buffer).reverse := by
        rw [List.reverse_cons, unbroken_append]
        exact ⟨h, hspace, trivial⟩
      obtain ⟨lead, placed, hrest⟩ := ih (c :: buffer) hgrown
      rw [List.reverse_cons, List.append_assoc] at hrest
      exact ⟨lead, placed, hrest⟩

theorem exists_layout (cs : List Char) : ∃ lead placed, Layout cs lead placed :=
  exists_layout_append [] cs trivial

/-! ### The scan finds the tokens of every layout -/

theorem scan_gap_append {gap : List Char} (h : Gap gap) (cs : List Char) :
    scan outermost [] (gap ++ cs) = scan outermost [] cs := by
  induction gap with
  | nil => rfl
  | cons c gap ih =>
    obtain ⟨rfl, hgap⟩ := List.forall_mem_cons.mp h
    exact ih hgap

theorem Layout.scan_eq {cs lead : List Char} {placed : List Placed} (h : Layout cs lead placed) :
    scan outermost [] cs = placed.map Placed.token := by
  induction placed generalizing cs lead with
  | nil =>
    rw [h.text, scan_gap_append h.lead]
    rfl
  | cons p placed ih =>
    rw [h.text, scan_gap_append h.lead, List.flatMap_cons]
    obtain ⟨token, gap⟩ := p
    have hsolid : Solid token := h.solid _ List.mem_cons_self
    cases gap with
    | nil =>
      -- no gap, so this is the last token
      have hlast : placed = [] := by
        cases placed with
        | nil => rfl
        | cons q rest => exact absurd rfl (h.parted ⟨token, []⟩ List.mem_cons_self)
      rw [hlast, List.flatMap_nil, List.append_nil, Placed.text, List.append_nil,
        scan_of_solid hsolid]
      rfl
    | cons c gap =>
      obtain rfl : c = ' ' := h.gaps ⟨token, c :: gap⟩ List.mem_cons_self c List.mem_cons_self
      have hclosed : Closed token := h.closed _ List.mem_cons_self (List.cons_ne_nil _ _)
      rw [Placed.text, List.append_assoc, List.cons_append, scan_append_space hclosed,
        scan_of_solid hsolid, ih h.tail]
      rfl

/-! ### Texts without marks -/

/-- The characters that open or close something. -/
def marks : List Char := ['(', ')', '#', '[', ']']

/-- The characters that count as a space. -/
def whites : List Char := [' ', '\t', '\n', '\r', '\u3000']

theorem plainSpace_of_mem {c : Char} (h : c ∈ whites) : plainSpace c = ' ' := by
  simp only [whites, List.mem_cons, List.not_mem_nil, or_false] at h
  rcases h with rfl | rfl | rfl | rfl | rfl <;> rfl

theorem plainSpace_of_not_mem {c : Char} (h : c ∉ whites) : plainSpace c = c ∧ c ≠ ' ' := by
  simp only [whites, List.mem_cons, List.not_mem_nil, or_false, not_or] at h
  obtain ⟨hspace, htab, hnewline, hreturn, hwide⟩ := h
  exact ⟨by simp [plainSpace, htab, hnewline, hreturn, hwide], hspace⟩

theorem plainSpace_plainSpace (c : Char) : plainSpace (plainSpace c) = plainSpace c := by
  by_cases hc : c ∈ whites
  · rw [plainSpace_of_mem hc]
    rfl
  · rw [(plainSpace_of_not_mem hc).1, (plainSpace_of_not_mem hc).1]

/-- The pieces between the white characters, except for empty ones. -/
def words (cs : List Char) : List (List Char) :=
  (cs.splitOnP (· ∈ whites)).filter (· ≠ [])

theorem words_of_not_white {cs : List Char} (h : ∀ c ∈ cs, c ∉ whites) :
    words cs = if cs.isEmpty then [] else [cs] := by
  rw [words, List.splitOnP_eq_singleton fun c hc => by simpa using h c hc]
  cases cs <;> rfl

theorem words_append_white {c : Char} (hc : c ∈ whites) (cs ds : List Char) :
    words (cs ++ c :: ds) = words cs ++ words ds := by
  rw [words, List.splitOnP_append_cons cs ds (by simpa using hc), List.filter_append]
  rfl

/-- Without marks the scan never leaves the outermost level. -/
theorem scan_of_unmarked {buffer cs : List Char} (hbuffer : ∀ c ∈ buffer.reverse, c ∉ whites)
    (h : ∀ c ∈ cs, c ∉ marks) :
    scan outermost buffer (cs.map plainSpace) = words (buffer.reverse ++ cs) := by
  induction cs generalizing buffer with
  | nil =>
    rw [List.append_nil, words_of_not_white hbuffer, List.isEmpty_reverse]
    rfl
  | cons c cs ih =>
    obtain ⟨hmark, hrest⟩ := List.forall_mem_cons.mp h
    rw [List.map_cons, scan]
    by_cases hc : c ∈ whites
    · rw [plainSpace_of_mem hc, if_pos ⟨rfl, rfl⟩, words_append_white hc,
        words_of_not_white hbuffer, List.isEmpty_reverse, ih (by simp) hrest]
      split <;> rfl
    · obtain ⟨hplain, hspace⟩ := plainSpace_of_not_mem hc
      have hgrown : ∀ d ∈ (c :: buffer).reverse, d ∉ whites := by
        intro d hd
        rcases List.mem_cons.mp (List.mem_reverse.mp hd) with rfl | hd
        · exact hc
        · exact hbuffer d (List.mem_reverse.mpr hd)
      rw [hplain, if_neg (fun hboth => hspace hboth.1), step_of_plain hmark, ih hgrown hrest,
        List.reverse_cons, List.append_assoc]
      rfl

/-! ### The tokens of a source -/

theorem eq_tokenize_iff {source : String} {tokens : List String} :
    tokens = tokenize source ↔
      scan outermost [] (source.toList.map plainSpace) = tokens.map String.toList := by
  rw [tokenize]
  constructor
  · rintro rfl
    simp [Function.comp_def]
  · intro h
    simp [h, Function.comp_def]

/-- A layout begins each of its tokens with a character. -/
theorem empty_not_mem_tokenize (source : String) : "" ∉ tokenize source := by
  obtain ⟨lead, placed, hlayout⟩ := exists_layout (source.toList.map plainSpace)
  intro hempty
  rw [tokenize, hlayout.scan_eq, List.map_map] at hempty
  obtain ⟨p, hp, hnil⟩ := List.mem_map.mp hempty
  exact (hlayout.solid p hp).1 (String.ofList_eq_empty_iff.mp hnil)

/-- **The tokens of a source are those of its layouts, and of no other.**  In
particular none of them is empty, and without marks they are the words between
white characters. -/
theorem tokenize_iff_layout (source : String) :
    (∀ tokens : List String, tokens = tokenize source ↔
      ∃ lead placed, Layout (source.toList.map plainSpace) lead placed ∧
        placed.map Placed.token = tokens.map String.toList) ∧
    "" ∉ tokenize source ∧
    ((∀ c ∈ source.toList, c ∉ marks) →
      tokenize source = (words source.toList).map String.ofList) := by
  refine ⟨fun tokens => eq_tokenize_iff.trans ⟨fun h => ?_, ?_⟩, empty_not_mem_tokenize source,
    fun hmarks => ?_⟩
  · obtain ⟨lead, placed, hlayout⟩ := exists_layout (source.toList.map plainSpace)
    exact ⟨lead, placed, hlayout, hlayout.scan_eq ▸ h⟩
  · rintro ⟨lead, placed, hlayout, htokens⟩
    rw [hlayout.scan_eq, htokens]
  · rw [tokenize, scan_of_unmarked (by simp) hmarks]
    rfl

/-- Two words between white characters of different kinds. -/
theorem tokenize_iff_layout_words :
    (∀ c ∈ "\tab\u3000 c\n".toList, c ∉ marks) ∧
      tokenize "\tab\u3000 c\n" = (words "\tab\u3000 c\n".toList).map String.ofList := by
  have hall : "\tab\u3000 c\n".toList.all (fun c => !marks.contains c) = true := by decide
  have hmarks : ∀ c ∈ "\tab\u3000 c\n".toList, c ∉ marks := by
    intro c hc
    simpa using List.all_eq_true.mp hall c hc
  exact ⟨hmarks, (tokenize_iff_layout _).2.2 hmarks⟩

end ReversePolish
