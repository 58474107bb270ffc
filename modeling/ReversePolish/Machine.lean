/-
ReversePolish/Machine.lean

The machine that a run acts on: the stack, the variables, the host around it
and the history.  All nested evaluations of a run share one machine, and a
routine that ends early leaves the machine as it was at that moment.

The primitive routines are here; every command is built from them.  Taking a
value from an empty stack gives the blank value and an error in the log.
-/
import ReversePolish.History
import ReversePolish.Interrupt
import ReversePolish.Number.Clamp
import ReversePolish.Value.Coercion

namespace ReversePolish

/-! ### The host -/

/-- A clock that shows the given readings one after the other, and the last
one for ever. -/
structure Clock where
  reading : Datum
  later : List Datum := []

/-- The clock after one reading has been taken. -/
def Clock.tick : Clock → Clock
  | ⟨reading, []⟩ => ⟨reading, []⟩
  | ⟨_, next :: later⟩ => ⟨next, later⟩

/-- The host: the answers it has ready for prompts, and its clock. -/
structure Host where
  replies : List Datum
  clock : Clock

/-! ### The machine -/

structure Machine where
  stack : Stack := {}
  store : Store := .empty
  host : Host
  history : History := #[]

/-- The machine with nothing on it, at a host that has no answer ready and
whose clock shows nothing. -/
def Machine.bare : Machine := { host := { replies := [], clock := { reading := .nothing } } }

/-- A routine on the machine. -/
abbrev Routine := ExceptT Interrupt (StateM Machine)

namespace Routine

variable {α β : Type}

/-- Run a routine: how it ended, and the machine it left. -/
def runOn (routine : Routine α) (m : Machine) : Except Interrupt α × Machine :=
  (ExceptT.run routine).run m

/-! ### Running a routine -/

@[simp] theorem runOn_pure (a : α) (m : Machine) :
    runOn (pure a : Routine α) m = (.ok a, m) := rfl

/-- A sequence stops where its first routine does. -/
theorem runOn_bind (routine : Routine α) (next : α → Routine β) (m : Machine) :
    runOn (routine >>= next) m =
      match runOn routine m with
      | (.ok a, m') => runOn (next a) m'
      | (.error interrupt, m') => (.error interrupt, m') := by
  have step : runOn (routine >>= next) m =
      (ExceptT.bindCont next (runOn routine m).1).run (runOn routine m).2 := rfl
  rw [step]
  rcases runOn routine m with ⟨_ | _, _⟩ <;> rfl

theorem runOn_bind_of_ok {routine : Routine α} {m m' : Machine} {a : α}
    (h : runOn routine m = (.ok a, m')) (next : α → Routine β) :
    runOn (routine >>= next) m = runOn (next a) m' := by
  rw [runOn_bind, h]

theorem runOn_bind_of_error {routine : Routine α} {m m' : Machine} {interrupt : Interrupt}
    (h : runOn routine m = (.error interrupt, m')) (next : α → Routine β) :
    runOn (routine >>= next) m = (.error interrupt, m') := by
  rw [runOn_bind, h]

@[simp] theorem runOn_throw (interrupt : Interrupt) (m : Machine) :
    runOn (throw interrupt : Routine α) m = (.error interrupt, m) := rfl

/-- A handler starts on the machine that the failed routine has left. -/
theorem runOn_tryCatch (routine : Routine α) (handler : Interrupt → Routine α) (m : Machine) :
    runOn (tryCatch routine handler) m =
      match runOn routine m with
      | (.ok a, m') => (.ok a, m')
      | (.error interrupt, m') => runOn (handler interrupt) m' := by
  unfold runOn ExceptT.run StateT.run
  simp only [tryCatch, tryCatchThe, MonadExceptOf.tryCatch, ExceptT.tryCatch, ExceptT.mk, bind,
    StateT.bind]
  rcases routine m with ⟨_ | _, _⟩ <;> rfl

@[simp] theorem runOn_get (m : Machine) : runOn get m = (.ok m, m) := rfl

@[simp] theorem runOn_modify (f : Machine → Machine) (m : Machine) :
    runOn (modify f) m = (.ok (), f m) := rfl

/-! ### The history -/

/-- Append an event to the history. -/
def record (event : Event) : Routine Unit :=
  modify fun m => { m with history := m.history.push event }

/-- Report an error from which the run recovers. -/
def report (message : String) : Routine Unit := record (.recovered message)

/-! ### Early ends -/

/-- End the run with a fault unless there is a result. -/
def ofExcept : Except Fault α → Routine α
  | .ok a => pure a
  | .error cause => throw (.fault cause)

theorem runOn_ofExcept (result : Except Fault α) (m : Machine) :
    runOn (ofExcept result) m = (result.mapError .fault, m) := by
  cases result <;> rfl

/-- Refuse the operands of a command. -/
def refuse (cause : Refusal) : Routine α := throw (.refusal cause)

/-! ### The stack -/

def push (v : Value) : Routine Unit :=
  modify fun m => { m with stack := m.stack.push v }

/-- The message for a pop from an empty stack. -/
def underflowMessage : String := "Not enough values on the stack, using the default value"

/-- Take the top value; an empty stack is reported and gives the blank
value. -/
def pop : Routine Value := do
  match (← get).stack.pop? with
  | some (v, rest) =>
    modify fun m => { m with stack := rest }
    return v
  | none =>
    report underflowMessage
    return .blank

theorem runOn_pop (m : Machine) :
    runOn pop m =
      match m.stack.pop? with
      | some (v, rest) => (.ok v, { m with stack := rest })
      | none =>
        (.ok .blank, { m with history := m.history.push (.recovered underflowMessage) }) := by
  simp only [pop, runOn_bind, runOn_get]
  cases m.stack.pop? with
  | none => rfl
  | some top => rfl

/-- Take everything above a depth, the lowest value first. -/
def popAbove (depth : Int) : Routine (List Value) := do
  let taken := (← get).stack.popAbove depth
  modify fun m => { m with stack := taken.rest }
  (List.replicate taken.missing underflowMessage).forM report
  return taken.values

/-- Taking everything above a depth is silent: at or above the height of the
stack it takes nothing. -/
theorem runOn_popAbove (m : Machine) (depth : Nat) :
    runOn (popAbove depth) m =
      (.ok (m.stack.topFirst.take (m.stack.size - depth)).reverse,
        { m with stack := ⟨m.stack.topFirst.drop (m.stack.size - depth)⟩ }) := by
  have count : ((m.stack.size : Int) - (depth : Int)).toNat = m.stack.size - depth := by omega
  have taken := m.stack.popMany_of_le (Nat.sub_le m.stack.size depth)
  simp only [popAbove, runOn_bind, runOn_get, runOn_modify, Stack.popAbove, count, taken]
  rfl

def popNumber : Routine Number := do
  ofExcept (← pop).toNumber

def popText : Routine String := do
  return (← pop).toText

def popTruth : Routine Bool := do
  return (← pop).toTruth

def popList : Routine (List Value) := do
  return (← pop).toList

/-- Take a count or an index. -/
def popIndex : Routine Nat := do
  return (← popNumber).toIndex

/-! ### Variables -/

def define (name : String) (v : Value) : Routine Unit :=
  modify fun m => { m with store := m.store.define name v }

def free (name : String) : Routine Unit :=
  modify fun m => { m with store := m.store.free name }

/-- Show the variables in the log. -/
def dumpStore : Routine Unit := do
  record (.dumped (← get).store)

/-! ### The host -/

/-- Prompt the host for an answer, as a text. -/
def ask (message : String) : Routine String := do
  record (.prompted message)
  match (← get).host.replies with
  | [] => throw (.fault .noReply)
  | reply :: later =>
    modify fun m => { m with host := { m.host with replies := later } }
    return reply.plainText

/-- A prompt uses up one answer, or there is none. -/
theorem runOn_ask (message : String) (m : Machine) :
    runOn (ask message) m =
      (match m.host.replies with
        | [] => .error (.fault .noReply)
        | reply :: _ => .ok reply.plainText,
      { m with
        history := m.history.push (.prompted message)
        host := { m.host with replies := m.host.replies.tail } }) := by
  rcases m with ⟨stack, store, ⟨replies, clock⟩, history⟩
  cases replies with
  | nil => rfl
  | cons reply later => rfl

/-- Read the clock. -/
def readClock : Routine Value := do
  let reading := (← get).host.clock.reading
  modify fun m => { m with host := { m.host with clock := m.host.clock.tick } }
  ofExcept reading.toValue

theorem runOn_readClock (m : Machine) :
    runOn readClock m =
      (m.host.clock.reading.toValue.mapError .fault,
        { m with host := { m.host with clock := m.host.clock.tick } }) := by
  simp only [readClock, runOn_bind, runOn_get, runOn_modify, runOn_ofExcept]

end Routine

end ReversePolish
