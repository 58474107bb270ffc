/-
ReversePolish/Command/Operator.lean

What the operators do.  Operands are taken from the top of the stack down, so
the last one written is taken first, and each is brought to the kind it is
needed in as it is taken.

Lists and texts are limited to `maxLength` elements; what would be longer is
refused and never built.
-/
import ReversePolish.Command.Basic
import ReversePolish.Machine
import ReversePolish.Number.Arithmetic
import ReversePolish.Text.Search

namespace ReversePolish

/-- The most elements or characters that one command may build, `2 ^ 28`. -/
def maxLength : Nat := 0x10000000

namespace Operator

open Routine

/-! ### Operators on two operands of one kind -/

/-- Take two numbers, the right operand first. -/
def onNumbers (f : Number → Number → Value) : Routine Unit := do
  let b ← popNumber
  let a ← popNumber
  push (f a b)

/-- Take two truth values, the right operand first. -/
def onTruths (f : Bool → Bool → Bool) : Routine Unit := do
  let b ← popTruth
  let a ← popTruth
  push (.truth (f a b))

/-- Take two texts, the right operand first. -/
def onTexts (f : String → String → Value) : Routine Unit := do
  let b ← popText
  let a ← popText
  push (f a b)

/-! ### Texts -/

/-- Repeat a text.  If the result would be too long, both operands go back as
they were. -/
def runRepeat : Routine Unit := do
  let times ← pop
  let subject ← pop
  let count := (← ofExcept times.toNumber).toIndex
  let text := subject.toText
  if text.length ≠ 0 ∧ maxLength / text.length < count then
    refuse (.repeatTooLong text.length count subject times)
  push (.text (Text.replicate text count))

/-- The character with a given code, if it is a Unicode scalar value. -/
def charOfCode? (point : Nat) : Option Char :=
  if h : point.isValidChar then some (Char.ofNatAux point h) else none

def runDecode : Routine Unit := do
  let code ← popNumber
  match charOfCode? code.toCodePoint with
  | some c => push (.text (String.singleton c))
  | none => refuse (.undecodable code code.toCodePoint)

def runEncode : Routine Unit := do
  match (← popText).toList with
  | [] => refuse .emptyText
  | c :: _ => push (.ofNat c.toNat)

def runReplace : Routine Unit := do
  let after ← popText
  let before ← popText
  let text ← popText
  push (.text (Text.replace text before after))

def runJoin : Routine Unit := do
  let delimiter ← popText
  let items ← popList
  push (.text (Text.join delimiter (items.map Value.toText)))

/-! ### Lists -/

def runGet : Routine Unit := do
  let index ← popIndex
  let items ← popList
  match items[index]? with
  | some v => push v
  | none => refuse (.indexOutOfRange index items)

def runSet : Routine Unit := do
  let v ← pop
  let index ← popIndex
  let items ← popList
  if index < items.length then push (.list (items.set index v))
  else refuse (.indexOutOfRange index items)

def runDelete : Routine Unit := do
  let index ← popIndex
  let items ← popList
  if index < items.length then push (.list (items.eraseIdx index))
  else refuse (.indexOutOfRange index items)

def runAppend : Routine Unit := do
  let v ← pop
  let items ← popList
  push (.list (items ++ [v]))

/-- Insert before an index, which may also be the length. -/
def runInsert : Routine Unit := do
  let v ← pop
  let index ← popIndex
  let items ← popList
  if index ≤ items.length then push (.list (items.insertIdx index v))
  else refuse (.indexOutOfRange index items)

/-- Sort the texts of the elements by the codes of their characters. -/
def runSort : Routine Unit := do
  let items ← popList
  push (.ofTexts (Text.sort (items.map Value.toText)))

def runReverse : Routine Unit := do
  push (.list (← popList).reverse)

/-- The number of steps that stay below `stop`. -/
def rangeLength (start stop step : Nat) : Nat := (stop - start + (step - 1)) / step

def runRange : Routine Unit := do
  let step ← popIndex
  let stop ← popIndex
  let start ← popIndex
  if step = 0 then refuse .zeroStep
  let length := rangeLength start stop step
  if maxLength < length then refuse (.rangeTooLong length)
  push (.list ((List.range length).map fun i => .ofNat (start + i * step)))

/-! ### The stack -/

def runCast : Routine Unit := do
  let kindName ← popText
  let v ← pop
  push (← ofExcept (v.cast kindName))

def runDuplicate : Routine Unit := do
  let v ← pop
  push v
  push v

def runSwap : Routine Unit := do
  let b ← pop
  let a ← pop
  push b
  push a

/-! ### All operators -/

def run : Operator → Routine Unit
  | add => onNumbers fun a b => .number (a.add b)
  | subtract => onNumbers fun a b => .number (a.sub b)
  | multiply => onNumbers fun a b => .number (a.mul b)
  | divide => onNumbers fun a b => .number (a.div b)
  | remainder => onNumbers fun a b => .number (a.rem b)
  | power => onNumbers fun a b => .number (a.pow b)
  | round => do push (.number (← popNumber).round)
  | conjoin => onTruths and
  | disjoin => onTruths or
  | negate => do push (.truth !(← popTruth))
  | equal => onTexts fun a b => .truth (a == b)
  | less => onNumbers fun a b => .truth (a.less b)
  | repeatText => runRepeat
  | decode => runDecode
  | encode => runEncode
  | concat => onTexts fun a b => .text (a ++ b)
  | replace => runReplace
  | split => onTexts fun text delimiter => .ofTexts (Text.split text delimiter)
  | join => runJoin
  | find => onTexts fun text needle => .truth (Text.contains text needle)
  | get => runGet
  | set => runSet
  | delete => runDelete
  | append => runAppend
  | insert => runInsert
  | sort => runSort
  | reverse => runReverse
  | range => runRange
  | length => do push (.ofNat (← pop).length)
  | drop => do let _ ← pop
  | kind => do push (.text (← pop).kind.name)
  | cast => runCast
  | duplicate => runDuplicate
  | swap => runSwap

end Operator

end ReversePolish
