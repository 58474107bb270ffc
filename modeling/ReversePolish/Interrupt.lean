/-
ReversePolish/Interrupt.lean

How a routine can end other than normally.

* A *refusal* is a command's: it names what was wrong with the operands and
  which values go back onto the stack, and the run continues with the next
  token.
* A *fault* ends the run, and so does an *exit* with a status.
* A routine is *exhausted* when the bound on its depth was too small; no
  program sees this.
-/
import ReversePolish.Fault
import ReversePolish.Value.Basic

namespace ReversePolish

/-! ### Refusals -/

inductive Refusal where
  /-- An index at which a list has no element. -/
  | indexOutOfRange (index : Nat) (items : List Value)
  /-- A number that is no character code. -/
  | undecodable (code : Number) (point : Nat)
  /-- A text with no first character. -/
  | emptyText
  /-- A range that would stay where it is. -/
  | zeroStep
  /-- A range with too many numbers. -/
  | rangeTooLong (length : Nat)
  /-- A text that would be repeated too often; both operands as given. -/
  | repeatTooLong (length count : Nat) (text times : Value)
  /-- A time that nobody can sleep. -/
  | unsleepable (seconds : Number)

namespace Refusal

def message : Refusal → String
  | indexOutOfRange index items =>
    "Index " ++ toString index ++ " is out of range for a list of length " ++
      toString items.length
  | undecodable _ point => "Failed to decode " ++ toString point ++ " into a character"
  | emptyText => "Failed to encode an empty string"
  | zeroStep => "range step must be at least 1"
  | rangeTooLong length => "range of " ++ toString length ++ " numbers is too long"
  | repeatTooLong length count _ _ =>
    "Cannot repeat a string of length " ++ toString length ++ " " ++ toString count ++ " times"
  | unsleepable seconds => "Cannot sleep for " ++ seconds.text ++ " seconds"

/-- The values that go back onto the stack, the lowest first. -/
def restore : Refusal → List Value
  | indexOutOfRange _ items => [.list items]
  | undecodable code _ => [.number code]
  | emptyText => [.blank]
  | zeroStep => [.list []]
  | rangeTooLong _ => [.list []]
  | repeatTooLong _ _ text times => [text, times]
  | unsleepable _ => []

end Refusal

/-! ### Interrupts -/

inductive Interrupt where
  | exit (status : Int)
  | fault (cause : Fault)
  | refusal (cause : Refusal)
  | exhausted

end ReversePolish
