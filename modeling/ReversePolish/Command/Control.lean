/-
ReversePolish/Command/Control.lean

What the control commands do.  Code is a text on the stack; it is evaluated by
the function handed in, on the same machine, and nothing is undone if it ends
early.

The loops over a list bind each element to a variable before the code is
evaluated and leave the last binding in place.
-/
import ReversePolish.Command.Basic
import ReversePolish.Machine

namespace ReversePolish.Control

open Routine

variable (evaluate : String → Routine Unit)

def runEvaluate : Routine Unit := do
  evaluate (← popText)

/-- Evaluate the first of two codes if the condition holds, else the
second. -/
def runChoose : Routine Unit := do
  let condition ← popTruth
  let otherwise ← popText
  let code ← popText
  evaluate (if condition then code else otherwise)

/-- Evaluate the condition, take its truth value, and as long as it holds
evaluate the body and start again; at most `bound` times. -/
def whileTrue (condition body : String) : (bound : Nat) → Routine Unit
  | 0 => throw .exhausted
  | bound + 1 => do
    evaluate condition
    if ← popTruth then
      evaluate body
      whileTrue condition body bound

def runLoop (bound : Nat) : Routine Unit := do
  let body ← popText
  let condition ← popText
  whileTrue evaluate condition body bound

/-- The operands of a loop over a list. -/
structure Binding where
  items : List Value
  name : String
  code : String

/-- Take the code, then the name, then the list. -/
def popBinding : Routine Binding := do
  let code ← popText
  let name ← popText
  let items ← popList
  return { items, name, code }

/-- Evaluate the code of a loop for one element. -/
def Binding.visit (b : Binding) (item : Value) : Routine Unit := do
  Routine.define b.name item
  evaluate b.code

def runForEach : Routine Unit := do
  let b ← popBinding
  b.items.forM (b.visit evaluate)

/-- Take a result after each element, and push the list of results. -/
def runMapEach : Routine Unit := do
  let b ← popBinding
  let results ← b.items.mapM fun item => do
    b.visit evaluate item
    pop
  push (.list results)

/-- Take a truth value after each element, and push the list of the elements
for which it was true. -/
def runFilterEach : Routine Unit := do
  let b ← popBinding
  let tested ← b.items.mapM fun item => do
    b.visit evaluate item
    return (item, ← popTruth)
  push (.list ((tested.filter Prod.snd).map Prod.fst))

/-- Run a control command.  `bound` limits the iterations of a loop on a
condition. -/
def run (bound : Nat) : Control → Routine Unit
  | .evaluate => runEvaluate evaluate
  | .choose => runChoose evaluate
  | .loop => runLoop evaluate bound
  | .forEach => runForEach evaluate
  | .mapEach => runMapEach evaluate
  | .filterEach => runFilterEach evaluate

end ReversePolish.Control
