/-
ReversePolish/Stack.lean

The stack of values.  Values are kept with the top first, and shown with the
bottom first.  A pop never fails: from an empty stack it gives the blank value,
and `popAbove` counts how often that happened.
-/
import ReversePolish.Datum
import ReversePolish.Value.Basic

namespace ReversePolish

/-- A stack of values, top first. -/
structure Stack where
  topFirst : List Value := []

namespace Stack

instance : Inhabited Stack := ⟨⟨[]⟩⟩

/-- The stack with the given values, bottom first. -/
def ofList (values : List Value) : Stack := ⟨values.reverse⟩

/-- The values of a stack, bottom first. -/
def toList (s : Stack) : List Value := s.topFirst.reverse

def size (s : Stack) : Nat := s.topFirst.length

def push (s : Stack) (v : Value) : Stack := ⟨v :: s.topFirst⟩

/-- The top value and the rest, unless the stack is empty. -/
def pop? (s : Stack) : Option (Value × Stack) :=
  match s.topFirst with
  | [] => none
  | v :: rest => some (v, ⟨rest⟩)

@[simp] theorem toList_ofList (values : List Value) : (ofList values).toList = values :=
  List.reverse_reverse values

@[simp] theorem ofList_toList (s : Stack) : ofList s.toList = s := by
  rw [ofList, toList, List.reverse_reverse]

@[simp] theorem toList_push (s : Stack) (v : Value) : (s.push v).toList = s.toList ++ [v] :=
  List.reverse_cons

@[simp] theorem size_push (s : Stack) (v : Value) : (s.push v).size = s.size + 1 := rfl

@[simp] theorem pop?_push (s : Stack) (v : Value) : (s.push v).pop? = some (v, s) := rfl

/-- The result of popping several values: the values with the lowest first,
what is left, and how many of them were blanks from an empty stack. -/
structure Taken where
  values : List Value
  rest : Stack
  missing : Nat

/-- Pop one more value. -/
def Taken.more (taken : Taken) : Taken :=
  match taken.rest.pop? with
  | some (v, rest) => { taken with values := v :: taken.values, rest }
  | none => { taken with values := .blank :: taken.values, missing := taken.missing + 1 }

/-- Pop a number of values. -/
def popMany (s : Stack) (count : Nat) : Taken :=
  count.repeat Taken.more ⟨[], s, 0⟩

/-- From a stack that is high enough, the values popped are its upper ones. -/
theorem popMany_of_le (s : Stack) {count : Nat} (h : count ≤ s.size) :
    s.popMany count = ⟨(s.topFirst.take count).reverse, ⟨s.topFirst.drop count⟩, 0⟩ := by
  induction count with
  | zero => rfl
  | succ count ih =>
    have hlt : count < s.topFirst.length := h
    have more : s.popMany (count + 1) = (s.popMany count).more := rfl
    rw [more, ih (Nat.le_of_succ_le h)]
    simp only [Taken.more, pop?, List.drop_eq_getElem_cons hlt,
      List.take_succ_eq_append_getElem hlt, List.reverse_append, List.reverse_singleton,
      List.singleton_append]

/-- Pop everything above a depth.  A negative depth lies below the bottom, and
blanks are taken down to it. -/
def popAbove (s : Stack) (depth : Int) : Taken :=
  s.popMany ((s.size : Int) - depth).toNat

/-- The stack with its upper values gathered into one list. -/
def gather (s : Stack) (count : Nat) : Stack :=
  ⟨.list (s.topFirst.take count).reverse :: s.topFirst.drop count⟩

/-! ### Display -/

/-- The stack as it stands in the log. -/
def display (s : Stack) : String :=
  "Stack[ " ++ String.intercalate " | " (s.toList.map Value.display) ++ " ]"

/-- The stack as the host dumps it. -/
def dump (s : Stack) : String :=
  "<ValueStack " ++ (Datum.list (s.toList.map Datum.ofValue)).dump ++ ">"

end Stack

end ReversePolish
