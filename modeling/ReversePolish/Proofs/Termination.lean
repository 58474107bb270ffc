/-
ReversePolish/Proofs/Termination.lean

Programs that always come to an end.  Six commands evaluate code that they
find on the stack.  A source is *first order* if none of them occurs in it,
neither among its tokens nor, hereditarily, among those of the bodies of its
list literals (`Occurs`, `FirstOrder`).  Texts on the stack or in variables do
not count, nor do text literals, because nothing in such a program executes a
text.

The evaluations inside a first-order program are those of list literals.  A
token is a piece of its source and a body lacks the two brackets, so the
source gets shorter with each of them (`length_lt_of_inside`), and its length
bounds their nesting.  The same measure makes being first order decidable.
-/
import ReversePolish.Proofs.Grammar
import ReversePolish.Proofs.Literal
import ReversePolish.Proofs.Recovery

namespace ReversePolish

open Routine Token

/-! ### Pieces of a source -/

theorem length_le_of_mem_tokenize {source token : String} (h : token ∈ tokenize source) :
    token.length ≤ source.length := by
  obtain ⟨lead, placed, hlayout⟩ := exists_layout (source.toList.map plainSpace)
  rw [tokenize, hlayout.scan_eq, List.map_map] at h
  obtain ⟨p, hp, rfl⟩ := List.mem_map.mp h
  calc (String.ofList p.token).length
      = p.token.length := String.length_ofList
    _ ≤ (source.toList.map plainSpace).length := (hlayout.infix_of_mem hp).length_le
    _ = source.length := by rw [List.length_map, String.length_toList]

/-- The body of a list literal is shorter than the source. -/
theorem length_lt_of_inside {source token body : String} (htoken : token ∈ tokenize source)
    (hbody : inside? '[' ']' token = some body) : body.length < source.length := by
  have hle := length_le_of_mem_tokenize htoken
  have hchars := congrArg List.length (toList_of_inside? hbody)
  simp only [List.cons_append, List.length_cons, List.length_append, List.length_nil,
    String.length_toList] at hchars
  omega

theorem Token.inside?_of_ofText {token body : String} (h : ofText token = .list body) :
    inside? '[' ']' token = some body := by
  unfold ofText at h
  split at h
  · cases h
  · cases h
  · repeat' split at h
    all_goals cases h
    assumption

/-! ### First-order sources -/

/-- The token occurs in a source: it is a token of it, or it occurs in the body
of one of its list literals. -/
inductive Occurs (token : String) : (source : String) → Prop where
  | here {source : String} : token ∈ tokenize source → Occurs token source
  | inside {source body : String} :
      "[" ++ body ++ "]" ∈ tokenize source → Occurs token body → Occurs token source

/-- No control command occurs. -/
def FirstOrder (source : String) : Prop := ∀ ctl : Control, ¬Occurs ctl.name source

/-- Token by token. -/
theorem firstOrder_iff {source : String} :
    FirstOrder source ↔ ∀ token ∈ tokenize source, (∀ ctl : Control, token ≠ ctl.name) ∧
      ∀ body ∈ inside? '[' ']' token, FirstOrder body := by
  constructor
  · intro h token htoken
    constructor
    · rintro ctl rfl
      exact h ctl (.here htoken)
    · intro body hbody ctl hoccurs
      have heq : token = "[" ++ body ++ "]" := by
        apply String.toList_injective
        rw [toList_of_inside? hbody]
        simp
      exact h ctl (.inside (heq ▸ htoken) hoccurs)
  · intro h ctl hoccurs
    cases hoccurs with
    | here htoken => exact (h _ htoken).1 ctl rfl
    | @inside _ body htoken hoccurs =>
      have hchars : ("[" ++ body ++ "]").toList = '[' :: body.toList ++ [']'] := by simp
      have hbody : inside? '[' ']' ("[" ++ body ++ "]") = some body := by
        rw [inside?_of_toList hchars, String.ofList_toList]
      exact (h _ htoken).2 body hbody ctl hoccurs

namespace FirstOrder

/-- Whether a token is other than the names of the control commands. -/
def checkName (token : String) : Bool :=
  match Command.ofName? token with
  | some (.control _) => false
  | _ => true

/-- Whether no control command occurs, looking into list literals down to a
depth. -/
def check : (depth : Nat) → (source : String) → Bool
  | 0, _ => false
  | depth + 1, source => (tokenize source).all fun token =>
      checkName token && (inside? '[' ']' token).all (check depth)

theorem checkName_iff {token : String} :
    checkName token = true ↔ ∀ ctl : Control, token ≠ ctl.name := by
  constructor
  · rintro h ctl rfl
    have hname : Command.ofName? ctl.name = some (.control ctl) := (Command.control ctl).ofName?_name
    rw [checkName, hname] at h
    cases h
  · intro h
    unfold checkName
    split
    · rename_i ctl hname
      exact absurd (Command.name_of_ofName? hname).symm (h ctl)
    · rfl

theorem check_iff {depth : Nat} {source : String} (h : source.length < depth) :
    check depth source = true ↔ FirstOrder source := by
  induction depth generalizing source with
  | zero => omega
  | succ depth ih =>
    rw [firstOrder_iff, check, List.all_eq_true]
    refine forall₂_congr fun token htoken => ?_
    rw [Bool.and_eq_true, Option.all_eq_true]
    refine and_congr checkName_iff (forall₂_congr fun body hbody => ih ?_)
    have hlt := length_lt_of_inside htoken hbody
    omega

instance (source : String) : Decidable (FirstOrder source) :=
  decidable_of_iff _ (check_iff (Nat.lt_succ_self source.length))

end FirstOrder

/-! ### Commands that evaluate nothing -/

/-- An interrupt other than that of a bound that was too small. -/
def Interrupt.Unexhausted (interrupt : Interrupt) : Prop := interrupt ≠ .exhausted

section Tokens

variable {evaluate : String → Routine Unit}

theorem execute_unexhausted {name : String} (h : ∀ ctl : Control, name ≠ ctl.name) (bound : Nat) :
    EndsOnly Interrupt.Unexhausted (execute evaluate bound name) := by
  unfold execute
  cases hname : Command.ofName? name with
  | none => exact endsOnly_push _
  | some command =>
    refine (endsOnly_record _).bind fun _ => .recovering ?_
    cases command with
    | operator op => exact op.run_endsOnly (fun _ => nofun) fun _ => nofun
    | effect eff => exact eff.run_endsOnly (fun _ => nofun) (fun _ => nofun) fun _ _ => nofun
    | control ctl => exact absurd (Command.name_of_ofName? hname).symm (h ctl)

theorem evaluateWord_unexhausted {name : String} (h : ∀ ctl : Control, name ≠ ctl.name)
    (bound : Nat) : EndsOnly Interrupt.Unexhausted (evaluateWord evaluate bound name) := by
  refine .bind (.of_ok id fun _ => rfl) fun m => ?_
  cases m.store.lookup? name with
  | some v => exact endsOnly_push v
  | none =>
    dsimp only
    split
    · exact endsOnly_record _
    · exact execute_unexhausted h bound

/-- Only the body of a list literal is evaluated. -/
theorem evaluateToken_unexhausted {token : String} (h : ∀ ctl : Control, token ≠ ctl.name)
    (hbody : ∀ body ∈ inside? '[' ']' token, EndsOnly Interrupt.Unexhausted (evaluate body))
    (bound : Nat) : EndsOnly Interrupt.Unexhausted (evaluateToken evaluate bound token) := by
  unfold evaluateToken
  cases htoken : Token.ofText token with
  | number n | truth b | text inside => exact endsOnly_push _
  | misspelled spelling => exact endsOnly_throw nofun
  | list body =>
    have hinner := hbody body (inside?_of_ofText htoken)
    exact fun m m' interrupt hrun => hinner (runOn_collect_eq_error.mp hrun)
  | word name =>
    obtain rfl := ofText_eq_word htoken
    exact evaluateWord_unexhausted h bound

end Tokens

/-! ### Sources -/

/-- A first-order source is not exhausted under a bound above its length. -/
theorem evaluate_unexhausted {bound : Nat} {source : String} (h : FirstOrder source)
    (hbound : source.length < bound) :
    EndsOnly Interrupt.Unexhausted (evaluate bound source) := by
  induction bound generalizing source with
  | zero => omega
  | succ bound ih =>
    refine .bind (.forM fun token htoken => ?_) fun _ => .of_ok _ fun _ => rfl
    obtain ⟨hname, hbodies⟩ := firstOrder_iff.mp h token htoken
    refine EndsOnly.visitToken (evaluateToken_unexhausted hname ?_ bound)
    -- one evaluation fewer may be nested in a body, which is shorter than the source
    intro body hbody
    have hlt := length_lt_of_inside htoken hbody
    exact ih (hbodies body hbody) (by omega)

/-- **First-order programs terminate**, on every machine, whatever texts are on
its stack or in its variables.  At most one evaluation more is nested than the
source has characters. -/
theorem evaluates_of_firstOrder {source : String} (h : FirstOrder source) (m : Machine) :
    ∃ outcome m', Evaluates source m outcome m' ∧
      runOn (evaluate (source.length + 1) source) m = (outcome, m') := by
  rcases hrun : runOn (evaluate (source.length + 1) source) m with ⟨outcome, m'⟩
  refine ⟨outcome, m', ⟨?_, _, hrun⟩, rfl⟩
  rintro rfl
  exact evaluate_unexhausted h (Nat.lt_succ_self _) hrun rfl

/-- Nested list literals over a variable that holds the name of a loop, on a
stack with code. -/
theorem evaluates_of_firstOrder_nested :
    let source := "[go [dup (if)]] swap"
    let m : Machine := { Machine.bare with
      stack := .ofList [.text "(eval) eval"], store := .ofList [("go", .text "while")] }
    FirstOrder source ∧ ∃ outcome m', Evaluates source m outcome m' ∧
      runOn (evaluate (source.length + 1) source) m = (outcome, m') := by
  intro source m
  have hfirst : FirstOrder source := by decide +kernel
  exact ⟨hfirst, evaluates_of_firstOrder hfirst m⟩

end ReversePolish
