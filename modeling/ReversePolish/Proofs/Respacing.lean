/-
ReversePolish/Proofs/Respacing.lean

Tokens put back into a text.  `Respaced tokens text` says that the text is the
tokens in their order, with white characters between each two of them, of any
kind and in any number.

A list of tokens survives this if no token can break, and none but the last
one can run into the next (`Separable`).  The depths inside a token need not
stay positive, and the last token may leave anything open, end in spaces or be
a comment without an end.  All tokens of one source are of this kind, so the
tokens of a text made from them are the same again (`tokenize_respaced`).
-/
import ReversePolish.Proofs.Grammar
import ReversePolish.Proofs.Numeral

namespace ReversePolish

open Nesting

/-! ### Texts made of tokens -/

/-- White characters, at least one of them. -/
structure WhiteRun (run : String) : Prop where
  ne_empty : run ≠ ""
  white : ∀ c ∈ run.toList, c ∈ whites

/-- The text is the tokens with white characters between each two of them. -/
inductive Respaced : List String → String → Prop
  | nothing : Respaced [] ""
  | last (token : String) : Respaced [token] token
  | before {next : String} {rest : List String} {text : String} (token run : String) :
      WhiteRun run → Respaced (next :: rest) text →
      Respaced (token :: next :: rest) (token ++ run ++ text)

/-- The same run everywhere. -/
theorem respaced_intercalate {run : String} (h : WhiteRun run) (tokens : List String) :
    Respaced tokens (String.intercalate run tokens) := by
  induction tokens with
  | nil => exact .nothing
  | cons token rest ih =>
    cases rest with
    | nil =>
      rw [String.intercalate_singleton]
      exact .last token
    | cons next rest =>
      rw [String.intercalate_cons_cons]
      exact .before token run h ih

/-- In plain spaces a run is a space and a gap. -/
theorem WhiteRun.exists_gap {run : String} (h : WhiteRun run) :
    ∃ gap, Gap gap ∧ run.toList.map plainSpace = ' ' :: gap := by
  obtain ⟨c, cs, hrun⟩ := List.exists_cons_of_ne_nil (mt String.toList_eq_nil_iff.mp h.ne_empty)
  have hwhite := h.white
  rw [hrun] at hwhite
  obtain ⟨hc, hcs⟩ := List.forall_mem_cons.mp hwhite
  refine ⟨cs.map plainSpace, ?_, ?_⟩
  · intro d hd
    obtain ⟨e, he, rfl⟩ := List.mem_map.mp hd
    exact plainSpace_of_mem (hcs e he)
  · rw [hrun, List.map_cons, plainSpace_of_mem hc]

/-! ### Tokens that stay apart -/

/-- Tokens of which none can break and none can run into the next one. -/
structure Separable (tokens : List String) : Prop where
  plain : ∀ token ∈ tokens, ∀ c ∈ token.toList, plainSpace c = c
  solid : ∀ token ∈ tokens, Solid token.toList
  /-- Only the last token may leave something open. -/
  closed : ∀ token ∈ tokens.dropLast, Closed token.toList

theorem Separable.head {token next : String} {rest : List String}
    (h : Separable (token :: next :: rest)) : Lone token where
  plain := h.plain token List.mem_cons_self
  solid := h.solid token List.mem_cons_self
  closed := h.closed token List.mem_cons_self

theorem Separable.tail {token next : String} {rest : List String}
    (h : Separable (token :: next :: rest)) : Separable (next :: rest) where
  plain := (List.forall_mem_cons.mp h.plain).2
  solid := (List.forall_mem_cons.mp h.solid).2
  closed := (List.forall_mem_cons.mp h.closed).2

/-- After a lone token and a run the scan starts afresh. -/
theorem tokenize_append_run {token run : String} (htoken : Lone token) (hrun : WhiteRun run)
    (text : String) : tokenize (token ++ run ++ text) = token :: tokenize text := by
  obtain ⟨gap, hgap, hspaces⟩ := hrun.exists_gap
  have hchars : (token ++ run ++ text).toList.map plainSpace =
      token.toList ++ ' ' :: (gap ++ text.toList.map plainSpace) := by
    simp only [String.toList_append, List.map_append, map_plainSpace_of_plain htoken.plain, hspaces,
      List.append_assoc, List.cons_append]
  rw [tokenize, hchars, scan_append_space htoken.closed, scan_of_solid htoken.solid,
    scan_gap_append hgap, List.map_append, List.map_singleton, String.ofList_toList]
  rfl

/-- Tokens that stay apart are the tokens of every text made of them. -/
theorem Respaced.tokenize_eq {tokens : List String} {text : String} (h : Respaced tokens text)
    (htokens : Separable tokens) : tokenize text = tokens := by
  induction h with
  | nothing => rfl
  | last token =>
    exact tokenize_of_solid (htokens.plain token List.mem_cons_self)
      (htokens.solid token List.mem_cons_self)
  | before token run hrun _ ih => rw [tokenize_append_run htokens.head hrun, ih htokens.tail]

/-- The tokens of a source stay apart. -/
theorem separable_tokenize (source : String) : Separable (tokenize source) := by
  obtain ⟨lead, placed, hlayout⟩ := exists_layout (source.toList.map plainSpace)
  have htokens : tokenize source = placed.map fun p => String.ofList p.token := by
    rw [tokenize, hlayout.scan_eq, List.map_map]
    rfl
  rw [htokens]
  constructor
  case plain =>
    intro token htoken c hc
    obtain ⟨p, hp, rfl⟩ := List.mem_map.mp htoken
    rw [String.toList_ofList] at hc
    obtain ⟨d, -, rfl⟩ := List.mem_map.mp ((hlayout.infix_of_mem hp).subset hc)
    exact plainSpace_plainSpace d
  case solid =>
    intro token htoken
    obtain ⟨p, hp, rfl⟩ := List.mem_map.mp htoken
    rw [String.toList_ofList]
    exact hlayout.solid p hp
  case closed =>
    intro token htoken
    rw [← List.map_dropLast] at htoken
    obtain ⟨p, hp, rfl⟩ := List.mem_map.mp htoken
    rw [String.toList_ofList]
    -- there is a gap after each token but the last one
    exact hlayout.closed p (List.dropLast_subset _ hp) (hlayout.parted p hp)

/-! ### The tokens of a source -/

/-- **Tokens can be put back into a text.**  Whatever a source is, its tokens
with any white characters between them are tokenized to the same tokens; so
are they with single spaces between them. -/
theorem tokenize_respaced (source : String) :
    (∀ text, Respaced (tokenize source) text → tokenize text = tokenize source) ∧
    tokenize (String.intercalate " " (tokenize source)) = tokenize source := by
  have hspace : WhiteRun " " := ⟨by decide, forall_mem_of_all (by decide)⟩
  have htokens := separable_tokenize source
  refine ⟨fun text h => h.tokenize_eq htokens, ?_⟩
  exact (respaced_intercalate hspace (tokenize source)).tokenize_eq htokens

/-- A parenthesis that closes before it opens, a list with a tab inside, and at the
end a text that is left open, with a hash mark and a space in it. -/
theorem tokenize_respaced_open :
    let source := "a)(b [1\t2]  (c #d "
    let text := "a)(b\u3000\n[1 2]\r(c #d "
    tokenize source = ["a)(b", "[1 2]", "(c #d "] ∧ Respaced (tokenize source) text ∧
      tokenize text = tokenize source := by
  intro source text
  have htokens : tokenize source = ["a)(b", "[1 2]", "(c #d "] := by decide
  have hrespaced : Respaced (tokenize source) text := by
    rw [htokens]
    exact .before "a)(b" "\u3000\n" ⟨by decide, forall_mem_of_all (by decide)⟩
      (.before "[1 2]" "\r" ⟨by decide, forall_mem_of_all (by decide)⟩ (.last "(c #d "))
  exact ⟨htokens, hrespaced, (tokenize_respaced source).1 text hrespaced⟩

end ReversePolish
