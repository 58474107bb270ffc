/-
ReversePolish/Command/Effect.lean

What the effects do: printing and prompting, the clock, the variables, the
depth of the stack, and the end of the run.  Both commands that change a
variable show the variables in the log afterwards.
-/
import ReversePolish.Command.Basic
import ReversePolish.Machine

namespace ReversePolish.Effect

open Routine

def runPrint : Routine Unit := do
  record (.printed (← popText))

/-- Prompt with a message and push the answer. -/
def runInput : Routine Unit := do
  push (.text (← ask (← popText)))

/-- End the whole run with a status. -/
def runExit : Routine Unit := do
  let status := (← popNumber).toStatus
  record (.exitRequested status)
  throw (.exit status)

def runDepth : Routine Unit := do
  push (.ofNat (← get).stack.size)

def runDefine : Routine Unit := do
  let name ← popText
  let v ← pop
  Routine.define name v
  dumpStore

def runNames : Routine Unit := do
  push (.ofTexts (← get).store.names)

def runFree : Routine Unit := do
  Routine.free (← popText)
  dumpStore

def runNow : Routine Unit := do
  push (← readClock)

/-- Sleep for a finite time that is not negative. -/
def runSleep : Routine Unit := do
  let seconds ← popNumber
  if !seconds.isFinite || seconds.less .zero then refuse (.unsleepable seconds)
  record (.slept seconds)

def run : Effect → Routine Unit
  | print => runPrint
  | input => runInput
  | exit => runExit
  | depth => runDepth
  | define => runDefine
  | names => runNames
  | free => runFree
  | now => runNow
  | sleep => runSleep

end ReversePolish.Effect
