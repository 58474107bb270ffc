/-
ReversePolish/Fault.lean

Faults: what ends a run and is not the program's to recover from.  A fault
comes from a text that only looks like a number, from a name that is not
bound, or from the host around the language.
-/
import ReversePolish.Text.Quoted
import ReversePolish.Text.Utf8

namespace ReversePolish

inductive Fault where
  /-- A text that would spell a number but for the letters `İ` and `ı`. -/
  | misspelledNumber (text : String)
  /-- A name with no value. -/
  | unboundName (name : String)
  /-- A prompt that nobody answers. -/
  | noReply
  /-- An integer of the host beyond the largest finite number. -/
  | integerTooLarge
  /-- A nesting limit that the host cannot hold. -/
  | limitTooLarge
  /-- A path that no folder can hold. -/
  | pathTooLong (path : String)
  /-- A file that is not UTF-8. -/
  | notUtf8 (flaw : Utf8.Flaw)
  deriving DecidableEq

def Fault.message : Fault → String
  | misspelledNumber text => "could not convert string to float: " ++ Text.quoted text
  | unboundName name => Text.quoted name
  | noReply => "EOF when reading a line"
  | integerTooLarge => "int too large to convert to float"
  | limitTooLarge => "Python int too large to convert to C int"
  | pathTooLong path => "[Errno 36] File name too long: " ++ Text.quoted path
  | notUtf8 flaw => flaw.message

end ReversePolish
