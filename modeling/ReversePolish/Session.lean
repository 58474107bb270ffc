/-
ReversePolish/Session.lean

Sessions: runs on one machine whose stack and variables persist.  A session
may begin with a prelude, given as code or found in the file that the settings
name; a file that does not exist is reported and does no harm, but a path that
no folder can hold is a fault.

Every run returns the output and the log that it added itself.
-/
import ReversePolish.Evaluate
import ReversePolish.Folder
import ReversePolish.Settings

namespace ReversePolish

open Routine

/-- The prelude a session begins with. -/
inductive Prelude where
  | none
  /-- The file that the settings name. -/
  | automatic
  | code (source : String)

/-- The texts that a run has added to the two channels. -/
structure Transcript where
  output : String
  log : String

/-- A bound on nesting that no run comes near. -/
def ampleBound : Nat := 0x4000000000000000

/-- What a session consists of besides its machine. -/
structure Session where
  settings : Settings
  folder : Folder := {}
  evaluator : String → Routine Unit := evaluate ampleBound

namespace Session

/-- The text of a file: UTF-8, with any kind of line ending. -/
def fileText (bytes : List UInt8) : Except Fault String :=
  match Utf8.decode bytes with
  | .ok text => .ok (String.ofList (Utf8.unifyNewlines text))
  | .error flaw => .error (.notUtf8 flaw)

/-- Evaluate a prelude. -/
def evaluatePrelude (s : Session) (code : String) : Routine Unit := do
  record (.preludeEntered code.length)
  s.evaluator code

/-- Evaluate the prelude that the settings name, if any. -/
def loadPrelude (s : Session) : Routine Unit := do
  match s.settings.preludePath with
  | .none => pure ()
  | some path =>
    match s.folder.find path with
    | .file bytes => s.evaluatePrelude (← ofExcept (fileText bytes))
    | .missing => record (.preludeMissing path.toText)
    | .tooLong => throw (.fault (.pathTooLong path.toText))

/-- Begin a session: check the limit on nesting, then evaluate the
prelude. -/
def start (s : Session) (prelude : Prelude) : Routine Unit := do
  let _ ← ofExcept s.settings.limitInForce
  match prelude with
  | .none => pure ()
  | .automatic => s.loadPrelude
  | .code source => if source.isEmpty then pure () else s.evaluatePrelude source

/-- Evaluate code and return what it added to the channels. -/
def run (s : Session) (code : String) : Routine Transcript := do
  let before := (← get).history.size
  s.evaluator code
  let added := (← get).history.since before
  return { output := added.output, log := added.log }

/-- Run one program in a session of its own. -/
def runProgram (s : Session) (source : String) : Routine Transcript := do
  s.start .automatic
  s.run source

end Session

end ReversePolish
