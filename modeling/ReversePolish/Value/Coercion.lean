/-
ReversePolish/Value/Coercion.lean

Every value can be taken for a value of every other kind.

* As a number: a truth value is one or zero, a list its length, a text the
  number it spells or else zero.  Only a misspelled number is refused.
* As a text: a text is itself, anything else its display form.
* As a truth value: zeros, the empty text and the empty list are false.
* As a list: a text is the list of its characters, a number or truth value a
  list of one.
-/
import ReversePolish.Fault
import ReversePolish.Number.Numeral
import ReversePolish.Value.Basic

namespace ReversePolish.Value

/-- The number a text is taken for. -/
def numberOfText (s : String) : Except Fault Number :=
  match Numeral.read s with
  | .number n => .ok n
  | .misspelled => .error (.misspelledNumber s)
  | .other => .ok .zero

def toNumber : Value → Except Fault Number
  | number n => .ok n
  | text s => numberOfText s
  | truth b => .ok (if b then .one else .zero)
  | list items => .ok (.ofNat items.length)

def toText : Value → String
  | text s => s
  | v => v.display

def toTruth : Value → Bool
  | number n => !n.isZero
  | text s => !s.isEmpty
  | truth b => b
  | list items => !items.isEmpty

def toList : Value → List Value
  | list items => items
  | text s => s.toList.map fun c => text (String.singleton c)
  | v => [v]

/-- A value taken for one of a given kind. -/
def coerce (kind : Kind) (v : Value) : Except Fault Value :=
  match kind with
  | .number => v.toNumber.map number
  | .text => .ok (text v.toText)
  | .truth => .ok (truth v.toTruth)
  | .list => .ok (list v.toList)

/-- A value taken for one of the kind with a given name; a name of no kind
leaves it as it is. -/
def cast (v : Value) (kindName : String) : Except Fault Value :=
  match Kind.ofName? kindName with
  | some kind => v.coerce kind
  | none => .ok v

/-- The number of elements of a list or characters of a text; other values
count as one. -/
def length : Value → Nat
  | list items => items.length
  | text s => s.length
  | _ => 1

end ReversePolish.Value
