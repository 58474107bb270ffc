/-
ReversePolish/Value/Basic.lean

The values of the language, their kinds, and how they are displayed.

A value is a number, a text, a truth value or a list of values of any kinds.
The display form is the form in which a value would be written in a program:
texts in parentheses, lists in brackets with a space between elements.
-/
import ReversePolish.Number.Text

namespace ReversePolish

inductive Value where
  | number (n : Number)
  | text (s : String)
  | truth (b : Bool)
  | list (items : List Value)

namespace Value

/-- The empty text, which stands in for a value that is missing. -/
def blank : Value := text ""

instance : Inhabited Value := ⟨blank⟩

/-- The number nearest to a natural number, as a value. -/
def ofNat (n : Nat) : Value := number (.ofNat n)

/-- A list of texts. -/
def ofTexts (texts : List String) : Value := list (texts.map text)

end Value

/-! ### Kinds -/

inductive Kind where
  | number
  | text
  | truth
  | list
  deriving DecidableEq

namespace Kind

/-- The name of a kind in programs. -/
def name : Kind → String
  | number => "number"
  | text => "string"
  | truth => "bool"
  | list => "list"

def all : List Kind := [number, text, truth, list]

/-- The kind with a given name. -/
def ofName? (s : String) : Option Kind := all.find? (·.name == s)

@[simp] theorem ofName?_name (k : Kind) : ofName? k.name = some k := by
  cases k <;> decide

end Kind

namespace Value

def kind : Value → Kind
  | number _ => .number
  | text _ => .text
  | truth _ => .truth
  | list _ => .list

/-! ### Display -/

mutual

/-- The display form of a value. -/
def display : Value → String
  | number n => n.text
  | text s => "(" ++ s ++ ")"
  | truth true => "true"
  | truth false => "false"
  | list items => "[" ++ String.intercalate " " (displayAll items) ++ "]"

/-- The display forms of the elements of a list. -/
def displayAll : List Value → List String
  | [] => []
  | item :: items => display item :: displayAll items

end

/-- The elements of a list are displayed one by one. -/
theorem displayAll_eq_map (items : List Value) : displayAll items = items.map display := by
  induction items with
  | nil => rw [displayAll, List.map_nil]
  | cons item items ih => rw [displayAll, List.map_cons, ih]

end Value

end ReversePolish
