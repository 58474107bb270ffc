/-
ReversePolish/History.lean

The history of a run: everything it shows to the outside, in order.  Nothing
in a run reads it.  The channels are views of it:

* the *output*, what the program prints;
* the *log*, which traces the stack before every token and after every
  evaluation, with comments, errors and dumps of the store in between;
* the *prompts* made and the *sleeps* asked for;
* the *diagnostics* for whoever operates the host, graded by severity.
-/
import ReversePolish.Stack
import ReversePolish.Store

namespace ReversePolish

/-! ### Events -/

inductive Event where
  /-- The stack before a token. -/
  | traced (stack : Stack) (token : String)
  /-- The stack after an evaluation. -/
  | settled (stack : Stack)
  /-- A comment of the program. -/
  | commented (token : String)
  /-- An error that the run has recovered from. -/
  | recovered (message : String)
  /-- The variables after a change. -/
  | dumped (store : Store)
  | printed (line : String)
  | prompted (message : String)
  | slept (seconds : Number)
  /-- A list literal whose body is about to be evaluated. -/
  | listEntered (token : String) (depth : Nat)
  /-- A command about to run. -/
  | commandEntered (name : String)
  | exitRequested (status : Int)
  /-- A prelude of so many characters about to be evaluated. -/
  | preludeEntered (length : Nat)
  | preludeMissing (path : String)

/-! ### Diagnostics -/

inductive Severity where
  | debug
  | info
  | warning
  deriving DecidableEq

/-- The rank of a severity on the scale of log levels. -/
def Severity.rank : Severity → Nat
  | debug => 10
  | info => 20
  | warning => 30

/-- The part of the system a diagnostic is about. -/
inductive Topic where
  | evaluation
  | control
  | channels
  | session
  deriving DecidableEq

structure Diagnostic where
  severity : Severity
  topic : Topic
  message : String

namespace Event

/-- What an event adds to the output. -/
def output : Event → String
  | printed line => line ++ "\n"
  | _ => ""

/-- What an event adds to the log.  A comment stands there without its hash
marks. -/
def log : Event → String
  | traced stack token => stack.display ++ " <- " ++ token ++ "\n"
  | settled stack => stack.display ++ "\n\n"
  | commented token => "Comment: " ++ String.ofList (token.toList.filter (· != '#')) ++ "\n"
  | recovered message => "Error: " ++ message ++ "\n"
  | dumped store => store.display ++ "\n"
  | _ => ""

def prompt? : Event → Option String
  | prompted message => some message
  | _ => none

def sleep? : Event → Option Number
  | slept seconds => some seconds
  | _ => none

/-- What an event tells the operator. -/
def diagnostic? : Event → Option Diagnostic
  | recovered message => some ⟨.warning, .channels, "recovered: " ++ message⟩
  | listEntered token depth =>
    some ⟨.debug, .evaluation,
      "entering list body " ++ Text.quoted token ++ " at depth " ++ toString depth⟩
  | commandEntered name => some ⟨.debug, .evaluation, "command " ++ name⟩
  | exitRequested status =>
    some ⟨.info, .control, "exit requested with status " ++ toString status⟩
  | preludeEntered length =>
    some ⟨.debug, .session, "evaluating prelude (" ++ toString length ++ " chars)"⟩
  | preludeMissing path =>
    some ⟨.warning, .session, "prelude " ++ path ++ " not found, continuing without it"⟩
  | _ => none

end Event

/-! ### Views -/

/-- Events in the order in which they happened. -/
abbrev History := Array Event

namespace History

/-- The texts of the events, one after the other. -/
def textOf (view : Event → String) (h : History) : String :=
  h.foldl (fun text event => text ++ view event) ""

def output (h : History) : String := h.textOf Event.output

def log (h : History) : String := h.textOf Event.log

def prompts (h : History) : List String := h.toList.filterMap Event.prompt?

def sleeps (h : History) : List Number := h.toList.filterMap Event.sleep?

def diagnostics (h : History) : List Diagnostic := h.toList.filterMap Event.diagnostic?

/-- The events after the first `start` ones. -/
def since (h : History) (start : Nat) : History := h.extract start h.size

end History

end ReversePolish
