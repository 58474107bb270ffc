/-
ReversePolish/Proofs/Frame.lean

The part of the stack that a program does not reach.  Put any values below
the stack on which a program starts: as long as the run neither takes a value
from an empty stack nor asks for the depth, it does not notice.  It ends in
the same way, with the same variables, output, prompts and sleeps, and the new
values are still at the bottom.

Two machines are compared of which one is the other *raised* on some values
(`Raised`).  The only primitives that tell them apart are `pop`, on an empty
stack, and the depth; the collection of a list literal works with depths too,
but only with the difference of two of them.
-/
import ReversePolish.Proofs.Evaluation
import ReversePolish.Proofs.Search
import ReversePolish.Proofs.Simulation

namespace ReversePolish

/-- A machine with values put below its stack. -/
def Machine.above (m : Machine) (below : List Value) : Machine :=
  { m with stack := .ofList (below ++ m.stack.toList) }

/-- The second machine has the values `lower`, top first, below its stack.
The traces of the two may differ, the other channels do not. -/
structure Raised (lower : List Value) (m raised : Machine) : Prop where
  stack : raised.stack.topFirst = m.stack.topFirst ++ lower
  store : raised.store = m.store
  host : raised.host = m.host
  output : raised.history.output = m.history.output
  prompts : raised.history.prompts = m.history.prompts
  sleeps : raised.history.sleeps = m.history.sleeps

/-- An event that does not depend on the depth of the stack: neither a pop
from an empty one nor the token for the depth. -/
def Event.DepthFree (e : Event) : Prop :=
  e ≠ .recovered Routine.underflowMessage ∧ ∀ stack, e ≠ .traced stack Effect.depth.name

namespace Raised

variable {lower : List Value} {m raised : Machine}

theorem size (h : Raised lower m raised) : raised.stack.size = m.stack.size + lower.length := by
  rw [Stack.size, Stack.size, h.stack, List.length_append]

theorem push (h : Raised lower m raised) (v : Value) :
    Raised lower { m with stack := m.stack.push v } { raised with stack := raised.stack.push v } :=
  { h with stack := congrArg (v :: ·) h.stack }

/-- Both machines record an event, the same but for the depth. -/
theorem record (h : Raised lower m raised) {e e' : Event} (houtput : e'.output = e.output)
    (hprompt : e'.prompt? = e.prompt?) (hsleep : e'.sleep? = e.sleep?) :
    Raised lower { m with history := m.history.push e }
      { raised with history := raised.history.push e' } where
  stack := h.stack
  store := h.store
  host := h.host
  output := by rw [History.output_push, History.output_push, h.output, houtput]
  prompts := by rw [History.prompts_push, History.prompts_push, h.prompts, hprompt]
  sleeps := by rw [History.sleeps_push, History.sleeps_push, h.sleeps, hsleep]

theorem withStore (h : Raised lower m raised) (f : Store → Store) :
    Raised lower { m with store := f m.store } { raised with store := f raised.store } :=
  { h with store := congrArg f h.store }

theorem withHost (h : Raised lower m raised) (f : Host → Host) :
    Raised lower { m with host := f m.host } { raised with host := f raised.host } :=
  { h with host := congrArg f h.host }

/-- Gathering the values above two corresponding depths gives the same
list. -/
theorem gather (h : Raised lower m raised) (depth : Nat) :
    Raised lower { m with stack := m.stack.gather (m.stack.size - depth) } { raised with
      stack := raised.stack.gather (raised.stack.size - (depth + lower.length)) } := by
  have hcount : raised.stack.size - (depth + lower.length) = m.stack.size - depth := by
    rw [h.size]
    omega
  have hle : m.stack.size - depth ≤ m.stack.topFirst.length := Nat.sub_le ..
  refine { h with stack := ?_ }
  rw [hcount]
  simp only [Stack.gather, h.stack, List.take_append_of_le_length hle,
    List.drop_append_of_le_length hle, List.cons_append]

end Raised

namespace Routine

variable {α : Type} {announced : String → Prop} {lower : List Value}

/-! ### The primitives -/

theorem follows_pop : Follows (Raised lower) Event.DepthFree announced pop := by
  intro m raised m' outcome h _ hrun hfree
  rw [runOn_pop] at hrun
  rcases hstack : m.stack.topFirst with - | ⟨v, rest⟩
  · -- an underflow would stand in the history
    have hempty : m.stack.pop? = none := by rw [Stack.pop?, hstack]
    rw [hempty] at hrun
    obtain ⟨rfl, rfl⟩ := Prod.mk.inj hrun
    exact absurd rfl (hfree _ Array.mem_push_self).1
  · have hsome : m.stack.pop? = some (v, ⟨rest⟩) := by rw [Stack.pop?, hstack]
    have hraised : raised.stack.pop? = some (v, ⟨rest ++ lower⟩) := by
      rw [Stack.pop?, h.stack, hstack, List.cons_append]
    rw [hsome] at hrun
    obtain ⟨rfl, rfl⟩ := Prod.mk.inj hrun
    refine ⟨{ raised with stack := ⟨rest ++ lower⟩ }, ?_, { h with stack := rfl }⟩
    rw [runOn_pop, hraised]

/-- The depth is asked for only after its token has been traced. -/
theorem follows_runDepth (hannounced : announced Effect.depth.name) :
    Follows (Raised lower) Event.DepthFree announced Effect.runDepth := by
  intro m raised m' outcome h htraced hrun hfree
  obtain ⟨stack, hmem⟩ := htraced _ hannounced
  -- the run itself adds nothing, so the trace is in its history too
  have hdepth : runOn Effect.runDepth m = (.ok (), { m with
      stack := m.stack.push (.number (.ofNat m.stack.size)) }) := rfl
  have hhistory : m'.history = m.history := by
    rw [hdepth] at hrun
    exact (congrArg Machine.history (Prod.mk.inj hrun).2).symm
  rw [← hhistory] at hmem
  exact absurd rfl ((hfree _ hmem).2 stack)

/-! ### All routines -/

theorem Assembled.follows {r : Routine α} (h : Assembled announced r) :
    Follows (Raised lower) Event.DepthFree announced r := by
  -- only `pop` and `depth` could tell the two stacks apart
  induction h with
  | pure a => exact .of_run (runOn_pure a) (fun _ => rfl) id
  | bind hr hnext ihr ihnext => exact .bind hr.appends (fun a => (hnext a).appends) ihr ihnext
  | throw interrupt => exact .of_run (runOn_throw interrupt) (fun _ => rfl) id
  | recovering hr hrecover ihr ihrecover =>
    exact .recovering hr.appends (fun cause => (hrecover cause).appends) ihr ihrecover
  | record e => exact .of_run (fun _ => rfl) (fun _ => rfl) fun h => h.record rfl rfl rfl
  | push v => exact .of_run (fun _ => rfl) (fun _ => rfl) fun h => h.push v
  | pop => exact follows_pop
  | depth hannounced => exact follows_runDepth hannounced
  | define name v =>
    exact .of_run (fun _ => rfl) (fun _ => rfl) fun h => h.withStore (·.define name v)
  | free name => exact .of_run (fun _ => rfl) (fun _ => rfl) fun h => h.withStore (·.free name)
  | dumpStore => exact .of_run (fun _ => rfl) (fun _ => rfl) fun h => h.record rfl rfl rfl
  | names =>
    refine .of_run (fun _ => rfl) (fun _ => rfl) ?_
    intro m raised h
    rw [h.store]
    exact h.push _
  | lookup name _ hotherwise ih =>
    -- the variables do not lie on the stack
    exact .lookup hotherwise.appends (fun h _ _ => by rw [h.store]) (fun v h => h.push v) ih
  | ask message => exact .ask message Raised.host (·.record rfl rfl rfl) fun f h => h.withHost f
  | readClock => exact .readClock Raised.host fun f h => h.withHost f
  | collect token _ ih =>
    refine .collect token (·.record rfl rfl rfl) ?_ ih
    intro m raised m₁ raised₁ h h₁
    -- the mark stands higher by just the values below
    rw [h.size]
    exact h₁.gather m.stack.size
  | trace token _ ih => exact .trace (fun h => h.record rfl rfl rfl) ih
  | settle => exact .of_run (fun _ => rfl) (fun _ => rfl) fun h => h.record rfl rfl rfl

end Routine

open Routine

/-! ### Reading the log -/

/-- A text that the log lacks is in no event. -/
theorem History.not_infix_log {h : History} {pattern : String}
    (hlog : Text.contains h.log pattern = false) {e : Event} (he : e ∈ h) :
    ¬pattern.toList <:+: e.log.toList := by
  intro hstands
  have hevent : e.log.toList <:+: h.log.toList := infix_textOf (Array.mem_toList_iff.mpr he)
  have hoccurs : Text.contains h.log pattern = true :=
    Text.occurs_iff.mpr (hstands.trans hevent)
  rw [hlog] at hoccurs
  cases hoccurs

/-- The log shows every event that depends on the depth. -/
theorem History.depthFree_of_log {h : History}
    (hunderflow : Text.contains h.log "Not enough values on the stack" = false)
    (hdepth : Text.contains h.log "size-stack" = false) : h.All Event.DepthFree := by
  intro e he
  constructor
  · rintro rfl
    refine not_infix_log hunderflow he ⟨"Error: ".toList, ", using the default value\n".toList, ?_⟩
    decide
  · rintro stack rfl
    refine not_infix_log hdepth he ⟨(stack.display ++ " <- ").toList, "\n".toList, ?_⟩
    simp [Event.log, Effect.name]

/-! ### Evaluation above other values -/

theorem Machine.raised_above (m : Machine) (below : List Value) :
    Raised below.reverse m (m.above below) where
  stack := by simp [above, Stack.ofList, Stack.toList]
  store := rfl
  host := rfl
  output := rfl
  prompts := rfl
  sleeps := rfl

/-- **The frame of a program.**  If a run neither takes a value from an empty
stack nor asks for the depth, then on a stack with any values below it the
program ends in the same way and leaves these values where they are. -/
theorem evaluates_above {source : String} {m m' : Machine} {outcome : Except Interrupt Unit}
    (h : Evaluates source m outcome m')
    (hunderflow : Text.contains (m.added m').log "Not enough values on the stack" = false)
    (hdepth : Text.contains (m.added m').log "size-stack" = false) (below : List Value) :
    ∃ m'', Evaluates source (m.above below) outcome m'' ∧
      m''.stack.toList = below ++ m'.stack.toList ∧ m''.store = m'.store ∧ m''.host = m'.host ∧
      ((m.above below).added m'').output = (m.added m').output ∧
      ((m.above below).added m'').prompts = (m.added m').prompts ∧
      ((m.above below).added m'').sleeps = (m.added m').sleeps := by
  obtain ⟨hended, bound, hrun⟩ := h
  have happends := evaluate_appends bound source
  -- both runs are compared from an empty history on
  have hfirst := happends.run_over hrun #[]
  rw [Array.empty_append] at hfirst
  have hfollows : Follows (Raised below.reverse) Event.DepthFree (fun _ => False)
      (evaluate bound source) := (evaluate_assembled bound source).follows
  have hraised := (m.withHistory #[]).raised_above below
  obtain ⟨raised', hsecond, hraised'⟩ :=
    hfollows hraised nofun hfirst (History.depthFree_of_log hunderflow hdepth)
  have hadded : ((m.withHistory #[]).above below).added raised' = raised'.history :=
    Machine.added_eq Array.empty_append.symm
  have hover := happends.run_over hsecond m.history
  rw [hadded] at hover
  have hviews : (m.above below).added (raised'.withHistory (m.history ++ raised'.history)) =
      raised'.history := Machine.added_eq rfl
  refine ⟨_, ⟨hended, bound, hover⟩, ?_, hraised'.store, hraised'.host, ?_⟩
  · show raised'.stack.topFirst.reverse = below ++ m'.stack.topFirst.reverse
    rw [hraised'.stack, List.reverse_append, List.reverse_reverse]
    rfl
  · rw [hviews]
    exact ⟨hraised'.output, hraised'.prompts, hraised'.sleeps⟩

/-- A list literal that works on the values below it, with two more values
below these. -/
theorem evaluates_above_swap :
    let m : Machine := { Machine.bare with
      stack := .ofList [.text "a", .text "b"], store := .ofList [("x", .truth true)] }
    let run := runOn (evaluate 3 "[swap] x") m
    Evaluates "[swap] x" m run.1 run.2 ∧
      Text.contains (m.added run.2).log "Not enough values on the stack" = false ∧
      Text.contains (m.added run.2).log "size-stack" = false ∧
      ∃ m'', Evaluates "[swap] x" (m.above [.blank, .truth false]) run.1 m'' ∧
        m''.stack.toList = [.blank, .truth false] ++ run.2.stack.toList := by
  intro m run
  have hends : Evaluates "[swap] x" m run.1 run.2 := evaluates_of_ended (by decide +kernel)
  have hunderflow : Text.contains (m.added run.2).log "Not enough values on the stack" = false := by
    rw [Text.contains, History.log, History.textOf_eq, String.toList_join]
    decide +kernel
  have hdepth : Text.contains (m.added run.2).log "size-stack" = false := by
    rw [Text.contains, History.log, History.textOf_eq, String.toList_join]
    decide +kernel
  obtain ⟨m'', hends', hstack, -⟩ :=
    evaluates_above hends hunderflow hdepth [.blank, .truth false]
  exact ⟨hends, hunderflow, hdepth, m'', hends', hstack⟩

end ReversePolish
