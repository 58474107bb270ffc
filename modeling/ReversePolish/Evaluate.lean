/-
ReversePolish/Evaluate.lean

Evaluation.  A source text is evaluated token by token: literals are pushed, a
list literal collects what its body leaves above the depth at which it
started, a variable pushes its value, a comment goes to the log, a command is
run, and any other word is pushed as a text.  The log shows the stack before
each token and at the end.

`evaluate` recurses on a bound for the depth of nested evaluations, which also
limits the iterations of each loop on a condition.  A run that needs more ends
as exhausted; a run that does not is the same under every larger bound.
-/
import ReversePolish.Command.Control
import ReversePolish.Command.Effect
import ReversePolish.Command.Operator
import ReversePolish.Token

namespace ReversePolish

open Routine

/-! ### Commands -/

/-- Run a command; its refusal is left to the caller. -/
def Command.run (evaluate : String → Routine Unit) (bound : Nat) : Command → Routine Unit
  | operator op => op.run
  | effect eff => eff.run
  | control ctl => ctl.run evaluate bound

/-- Recover from a refusal: give the values back, then report. -/
def recover (cause : Refusal) : Routine Unit := do
  cause.restore.forM push
  report cause.message

/-- Run a routine and recover from its refusal. -/
def recovering (routine : Routine Unit) : Routine Unit :=
  tryCatch routine fun
    | .refusal cause => recover cause
    | other => throw other

theorem runOn_recovering_of_refusal {routine : Routine Unit} {m m' : Machine} {cause : Refusal}
    (h : runOn routine m = (.error (.refusal cause), m')) :
    runOn (recovering routine) m = runOn (recover cause) m' := by
  rw [recovering, runOn_tryCatch, h]

/-- Any other end is left as it is. -/
theorem runOn_recovering_of_ne {routine : Routine Unit} {m m' : Machine}
    {outcome : Except Interrupt Unit} (h : runOn routine m = (outcome, m'))
    (hne : ¬∃ cause, outcome = .error (.refusal cause)) :
    runOn (recovering routine) m = (outcome, m') := by
  rw [recovering, runOn_tryCatch, h]
  rcases outcome with (_ | _ | cause | _) | _
  case error.refusal => exact absurd ⟨cause, rfl⟩ hne
  all_goals rfl

/-- Run the command of a given name, or push the name if there is none. -/
def execute (evaluate : String → Routine Unit) (bound : Nat) (name : String) : Routine Unit :=
  match Command.ofName? name with
  | none => push (.text name)
  | some command => do
    record (.commandEntered name)
    recovering (command.run evaluate bound)

/-- The machine on which a command is run. -/
def Machine.noting (m : Machine) (name : String) : Machine :=
  { m with history := m.history.push (.commandEntered name) }

theorem runOn_execute_name (evaluate : String → Routine Unit) (bound : Nat) (c : Command)
    (m : Machine) :
    runOn (execute evaluate bound c.name) m =
      runOn (recovering (c.run evaluate bound)) (m.noting c.name) := by
  rw [execute, Command.ofName?_name]
  rfl

/-! ### Tokens -/

/-- Push the list of what the body of a list literal leaves. -/
def collect (evaluate : String → Routine Unit) (token body : String) : Routine Unit := do
  let depth := (← get).stack.size
  record (.listEntered token depth)
  evaluate body
  push (.list (← popAbove depth))

section Collect

variable {evaluate : String → Routine Unit} {token body : String} {m m' : Machine}

/-- The machine on which the body of a list literal is evaluated. -/
def Machine.entering (m : Machine) (token : String) : Machine :=
  { m with history := m.history.push (.listEntered token m.stack.size) }

theorem runOn_collect_of_error {interrupt : Interrupt}
    (h : runOn (evaluate body) (m.entering token) = (.error interrupt, m')) :
    runOn (collect evaluate token body) m = (.error interrupt, m') := by
  have hbegin : runOn (collect evaluate token body) m =
      runOn (do evaluate body; push (.list (← popAbove m.stack.size))) (m.entering token) := rfl
  rw [hbegin, runOn_bind_of_error h]

/-- What the body has left above the old height becomes one list. -/
theorem runOn_collect_of_ok (h : runOn (evaluate body) (m.entering token) = (.ok (), m')) :
    runOn (collect evaluate token body) m =
      (.ok (), { m' with stack := m'.stack.gather (m'.stack.size - m.stack.size) }) := by
  have hbegin : runOn (collect evaluate token body) m =
      runOn (do evaluate body; push (.list (← popAbove m.stack.size))) (m.entering token) := rfl
  rw [hbegin, runOn_bind_of_ok h, runOn_bind_of_ok (runOn_popAbove _ _)]
  rfl

end Collect

/-- A variable, else a comment, else a command. -/
def evaluateWord (evaluate : String → Routine Unit) (bound : Nat) (name : String) :
    Routine Unit := do
  match (← get).store.lookup? name with
  | some v => push v
  | none =>
    if '#' ∈ name.toList then record (.commented name)
    else execute evaluate bound name

/-- Evaluate one token. -/
def evaluateToken (evaluate : String → Routine Unit) (bound : Nat) (token : String) :
    Routine Unit :=
  match Token.ofText token with
  | .number n => push (.number n)
  | .misspelled spelling => throw (.fault (.misspelledNumber spelling))
  | .truth b => push (.truth b)
  | .text inside => push (.text inside)
  | .list body => collect evaluate token body
  | .word name => evaluateWord evaluate bound name

/-! ### Sources -/

/-- Record the stack before a token. -/
def trace (token : String) : Routine Unit := do
  record (.traced (← get).stack token)

/-- The machine after a token has been traced. -/
def Machine.tracing (m : Machine) (token : String) : Machine :=
  { m with history := m.history.push (.traced m.stack token) }

theorem runOn_trace (token : String) (m : Machine) :
    runOn (trace token) m = (.ok (), m.tracing token) := rfl

/-- What an evaluation does for one token of its source. -/
def visitToken (evaluate : String → Routine Unit) (bound : Nat) (token : String) :
    Routine Unit := do
  trace token
  evaluateToken evaluate bound token

theorem runOn_visitToken (evaluate : String → Routine Unit) (bound : Nat) (token : String)
    (m : Machine) :
    runOn (visitToken evaluate bound token) m =
      runOn (evaluateToken evaluate bound token) (m.tracing token) :=
  runOn_bind_of_ok (runOn_trace token m) _

/-- Record the stack after an evaluation. -/
def settle : Routine Unit := do
  record (.settled (← get).stack)

/-- Evaluate a source text with at most `bound` nested evaluations. -/
def evaluate : (bound : Nat) → (source : String) → Routine Unit
  | 0, _ => throw .exhausted
  | bound + 1, source => do
    (tokenize source).forM (visitToken (evaluate bound) bound)
    settle

end ReversePolish
