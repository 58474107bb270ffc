/-
ReversePolish/Datum.lean

Data of the host: what it answers to a prompt, what its clock shows, and what
an embedding program may hand over.  Besides the values of the language a host
has integers of any size, tuples, and nothing at all.

A datum has a plain text (`Datum.plainText`, in which a text is itself) and a
dump (`Datum.dump`, in which texts are quoted and numbers keep their point).
-/
import ReversePolish.Fault
import ReversePolish.Value.Basic

namespace ReversePolish

inductive Datum where
  | number (n : Number)
  | integer (n : Int)
  | text (s : String)
  | truth (b : Bool)
  | list (items : List Datum)
  | tuple (items : List Datum)
  | nothing

namespace Datum

/-! ### Between data and values -/

mutual

/-- A value as a datum. -/
def ofValue : Value → Datum
  | .number n => number n
  | .text s => text s
  | .truth b => truth b
  | .list items => list (ofValues items)

def ofValues : List Value → List Datum
  | [] => []
  | item :: items => ofValue item :: ofValues items

end

/-- An integer as a value; it has to be in the range of the finite
numbers. -/
def integerValue (n : Int) : Except Fault Value :=
  (Number.ofInt? n).elim (.error .integerTooLarge) fun value => .ok (.number value)

mutual

/-- A datum as a value: integers become numbers, tuples become lists, and
nothing becomes a text that says so. -/
def toValue : Datum → Except Fault Value
  | number n => .ok (.number n)
  | integer n => integerValue n
  | text s => .ok (.text s)
  | truth b => .ok (.truth b)
  | list items => (toValues items).map .list
  | tuple items => (toValues items).map .list
  | nothing => .ok (.text "None")

def toValues : List Datum → Except Fault (List Value)
  | [] => .ok []
  | item :: items => do
    let first ← toValue item
    let rest ← toValues items
    return first :: rest

end

/-! ### Texts -/

mutual

/-- The form of a datum inside another one: texts are quoted, and a tuple of
one element has a comma after it. -/
def dump : Datum → String
  | number n => n.hostText
  | integer n => toString n
  | text s => Text.quoted s
  | truth true => "True"
  | truth false => "False"
  | list items => "[" ++ String.intercalate ", " (dumpAll items) ++ "]"
  | tuple [item] => "(" ++ dump item ++ ",)"
  | tuple items => "(" ++ String.intercalate ", " (dumpAll items) ++ ")"
  | nothing => "None"

def dumpAll : List Datum → List String
  | [] => []
  | item :: items => dump item :: dumpAll items

end

/-- The plain text of a datum: a text is itself. -/
def plainText : Datum → String
  | text s => s
  | datum => datum.dump

end Datum

end ReversePolish
