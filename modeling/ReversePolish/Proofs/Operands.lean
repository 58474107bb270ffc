/-
ReversePolish/Proofs/Operands.lean

The operands of commands.  Every command has an *arity*: it first takes so
many values from the stack, one after the other, and does nothing else in
between.  Only then it goes on, in a way that depends on the values it has
taken.  The one thing that can come before the last operand is the end of the
run, by an operand that is a misspelled number.

`Routine.Takes rest k r` says this of a routine `r`: it takes `k` operands, and
what it does then has the property `rest`.

* An operator pushes its results or refuses its operands, and that is all
  (`Operator.takes`).
* An effect or a control command goes on with some routine that appends to the
  history and does not read it (`Command.takes`).
-/
import ReversePolish.Proofs.Appending

namespace ReversePolish

/-! ### Arities -/

/-- The number of operands of an operator. -/
def Operator.arity : Operator → Nat
  | round | negate | decode | encode | sort | reverse | length | drop | kind | duplicate => 1
  | add | subtract | multiply | divide | remainder | power | conjoin | disjoin | equal | less
  | repeatText | concat | split | join | find | get | delete | append | cast | swap => 2
  | replace | set | insert | range => 3

def Effect.arity : Effect → Nat
  | depth | names | now => 0
  | print | input | exit | free | sleep => 1
  | define => 2

/-- The number of operands that a control command takes before it evaluates
any code. -/
def Control.arity : Control → Nat
  | evaluate => 1
  | loop => 2
  | choose | forEach | mapEach | filterEach => 3

def Command.arity : Command → Nat
  | operator op => op.arity
  | effect eff => eff.arity
  | control ctl => ctl.arity

namespace Routine

/-! ### Taking operands -/

/-- The routine takes `k` values, unless one of them is a misspelled number,
and goes on with a routine that has the property `rest`. -/
inductive Takes (rest : Routine Unit → Prop) : Nat → Routine Unit → Prop where
  | done {r : Routine Unit} : rest r → Takes rest 0 r
  | operand {k : Nat} {next : Value → Routine Unit} :
      (∀ v, Takes rest k (next v)) → Takes rest (k + 1) (pop >>= next)
  | misspelled (k : Nat) (text : String) : Takes rest k (throw (.fault (.misspelledNumber text)))

variable {rest rest' : Routine Unit → Prop} {k : Nat}

theorem Takes.mono {r : Routine Unit} (h : Takes rest k r) (himp : ∀ r, rest r → rest' r) :
    Takes rest' k r := by
  induction h with
  | done hr => exact .done (himp _ hr)
  | operand _ ih => exact .operand ih
  | misspelled k text => exact .misspelled k text

/-- An operand in the form in which it is needed. -/
theorem Takes.operandAs {α : Type} (form : Value → α) {next : α → Routine Unit}
    (h : ∀ a, Takes rest k (next a)) :
    Takes rest (k + 1) ((do return form (← pop)) >>= next) := by
  have hnext : (do return form (← pop)) >>= next = pop >>= fun v => next (form v) := by
    simp only [bind_assoc, pure_bind]
  rw [hnext]
  exact .operand fun v => h (form v)

theorem Takes.text {next : String → Routine Unit} (h : ∀ s, Takes rest k (next s)) :
    Takes rest (k + 1) (popText >>= next) := .operandAs Value.toText h

theorem Takes.truth {next : Bool → Routine Unit} (h : ∀ b, Takes rest k (next b)) :
    Takes rest (k + 1) (popTruth >>= next) := .operandAs Value.toTruth h

theorem Takes.list {next : List Value → Routine Unit} (h : ∀ items, Takes rest k (next items)) :
    Takes rest (k + 1) (popList >>= next) := .operandAs Value.toList h

/-! ### Numbers among the operands -/

/-- Only a misspelled number is no number. -/
theorem misspelled_of_toNumber_error {v : Value} {cause : Fault} (h : v.toNumber = .error cause) :
    ∃ text, cause = .misspelledNumber text := by
  have hpermitted : Interrupt.Permitted (fun _ => False) (.fault cause) := read_of_toNumber_error h
  cases cause with
  | misspelledNumber text => exact ⟨text, rfl⟩
  | unboundName | noReply | integerTooLarge | limitTooLarge | pathTooLong | notUtf8 =>
    exact absurd hpermitted id

/-- A value taken for a number, after it has been popped. -/
theorem Takes.toNumber (v : Value) {next : Number → Routine Unit}
    (h : ∀ n, Takes rest k (next n)) : Takes rest k (ofExcept v.toNumber >>= next) := by
  cases hv : v.toNumber with
  | ok n => exact h n
  | error cause =>
    obtain ⟨text, rfl⟩ := misspelled_of_toNumber_error hv
    exact .misspelled k text

theorem Takes.number {next : Number → Routine Unit} (h : ∀ n, Takes rest k (next n)) :
    Takes rest (k + 1) (popNumber >>= next) := by
  have hnext : popNumber >>= next = pop >>= fun v => ofExcept v.toNumber >>= next := by
    simp only [popNumber, bind_assoc]
  rw [hnext]
  exact .operand fun v => .toNumber v h

theorem Takes.index {next : Nat → Routine Unit} (h : ∀ i, Takes rest k (next i)) :
    Takes rest (k + 1) (popIndex >>= next) := by
  have hnext : popIndex >>= next = popNumber >>= fun n => next n.toIndex := by
    simp only [popIndex, bind_assoc, pure_bind]
  rw [hnext]
  exact .number fun n => h n.toIndex

end Routine

open Routine

/-! ### Operators -/

/-- What an operator does once it has its operands: it pushes its results, or
it refuses. -/
inductive Answers : Routine Unit → Prop where
  | pushes (values : List Value) : Answers (values.forM push)
  | refuses (cause : Refusal) : Answers (refuse cause)

theorem Answers.push (v : Value) : Answers (push v) := .pushes [v]

namespace Operator

theorem takes_onNumbers (f : Number → Number → Value) : Takes Answers 2 (onNumbers f) :=
  .number fun _ => .number fun _ => .done (.push _)

theorem takes_onTruths (f : Bool → Bool → Bool) : Takes Answers 2 (onTruths f) :=
  .truth fun _ => .truth fun _ => .done (.push _)

theorem takes_onTexts (f : String → String → Value) : Takes Answers 2 (onTexts f) :=
  .text fun _ => .text fun _ => .done (.push _)

theorem takes_runRepeat : Takes Answers 2 runRepeat := by
  refine .operand fun times => .operand fun subject => .toNumber times fun n => .done ?_
  dsimp only
  split
  · exact .refuses _
  · exact .push _

theorem takes_runDecode : Takes Answers 1 runDecode := by
  refine .number fun code => .done ?_
  cases charOfCode? code.toCodePoint with
  | some c => exact .push _
  | none => exact .refuses _

theorem takes_runEncode : Takes Answers 1 runEncode := by
  refine .text fun s => .done ?_
  cases s.toList with
  | nil => exact .refuses _
  | cons c rest => exact .push _

theorem takes_runGet : Takes Answers 2 runGet := by
  refine .index fun index => .list fun items => .done ?_
  cases items[index]? with
  | some v => exact .push v
  | none => exact .refuses _

theorem takes_runRange : Takes Answers 3 runRange := by
  refine .index fun step => .index fun stop => .index fun start => .done ?_
  dsimp only
  split
  · exact .refuses _
  · split
    · exact .refuses _
    · exact .push _

theorem takes_runCast : Takes Answers 2 runCast := by
  refine .text fun kindName => .operand fun v => ?_
  unfold Value.cast
  split
  · rename_i kind _
    cases kind with
    | number =>
      unfold Value.coerce
      cases hv : v.toNumber with
      | ok n => exact .done (.push _)
      | error cause =>
        obtain ⟨text, rfl⟩ := misspelled_of_toNumber_error hv
        exact .misspelled 0 text
    | text | truth | list => exact .done (.push _)
  · exact .done (.push _)

/-- A result if the operands fit, else a refusal. -/
theorem answers_fit (fits : Prop) [Decidable fits] (v : Value) (cause : Refusal) :
    Answers (if fits then push v else refuse cause) := by
  split
  · exact .push v
  · exact .refuses cause

/-- An operator takes its operands, and then pushes its results or refuses. -/
theorem takes (op : Operator) : Takes Answers op.arity op.run := by
  cases op with
  | add | subtract | multiply | divide | remainder | power | less => exact takes_onNumbers _
  | conjoin | disjoin => exact takes_onTruths _
  | equal | concat | split | find => exact takes_onTexts _
  | round => exact .number fun _ => .done (.push _)
  | negate => exact .truth fun _ => .done (.push _)
  | repeatText => exact takes_runRepeat
  | decode => exact takes_runDecode
  | encode => exact takes_runEncode
  | replace => exact .text fun _ => .text fun _ => .text fun _ => .done (.push _)
  | join => exact .text fun _ => .list fun _ => .done (.push _)
  | get => exact takes_runGet
  | set => exact .operand fun _ => .index fun _ => .list fun _ => .done (answers_fit ..)
  | delete => exact .index fun _ => .list fun _ => .done (answers_fit ..)
  | insert => exact .operand fun _ => .index fun _ => .list fun _ => .done (answers_fit ..)
  | append => exact .operand fun _ => .list fun _ => .done (.push _)
  | sort => exact .list fun _ => .done (.push _)
  | reverse => exact .list fun _ => .done (.push _)
  | range => exact takes_runRange
  | length => exact .operand fun _ => .done (.push _)
  | drop => exact .operand fun _ => .done (.pushes [])
  | kind => exact .operand fun _ => .done (.push _)
  | cast => exact takes_runCast
  | duplicate => exact .operand fun v => .done (.pushes [v, v])
  | swap => exact .operand fun b => .operand fun a => .done (.pushes [b, a])

end Operator

/-! ### Effects -/

namespace Routine

variable {α β : Type} {allowed : Event → Prop} {r : Routine α}

/-- The routine runs alike over every history, and adds events of the given
kind only. -/
def AppendsOnly (allowed : Event → Prop) (r : Routine α) : Prop :=
  ∀ m : Machine, ∃ (outcome : Except Interrupt α) (m' : Machine) (added : History),
    (∀ h, runOn r (m.withHistory h) = (outcome, m'.withHistory (h ++ added))) ∧
      ∀ e ∈ added, allowed e

theorem Appends.only (h : Appends r) (hallowed : ∀ e, allowed e) : AppendsOnly allowed r := by
  intro m
  obtain ⟨outcome, m', added, hrun⟩ := h m
  exact ⟨outcome, m', added, hrun, fun e _ => hallowed e⟩

theorem AppendsOnly.mono {allowed' : Event → Prop} (h : AppendsOnly allowed r)
    (himp : ∀ e, allowed e → allowed' e) : AppendsOnly allowed' r := by
  intro m
  obtain ⟨outcome, m', added, hrun, hadded⟩ := h m
  exact ⟨outcome, m', added, hrun, fun e he => himp e (hadded e he)⟩

theorem AppendsOnly.of_silent
    (h : ∀ (m : Machine) (h : History),
      runOn r (m.withHistory h) = ((runOn r m).1, (runOn r m).2.withHistory h)) :
    AppendsOnly allowed r := by
  intro m
  refine ⟨(runOn r m).1, (runOn r m).2, #[], fun h' => ?_, nofun⟩
  rw [h m h', Array.append_empty]

theorem AppendsOnly.of_event (e : Machine → Event) (he : ∀ m, allowed (e m))
    (h : ∀ (m : Machine) (h : History),
      runOn r (m.withHistory h) = ((runOn r m).1, (runOn r m).2.withHistory (h.push (e m)))) :
    AppendsOnly allowed r := by
  intro m
  refine ⟨(runOn r m).1, (runOn r m).2, #[e m], fun h' => ?_, ?_⟩
  · rw [h m h', Array.push_eq_append]
  · intro e' he'
    obtain rfl := Array.mem_singleton.mp he'
    exact he m

theorem AppendsOnly.bind {next : α → Routine β} (hr : AppendsOnly allowed r)
    (hnext : ∀ a, AppendsOnly allowed (next a)) : AppendsOnly allowed (r >>= next) := by
  intro m
  obtain ⟨outcome, m₁, added, hrun, hadded⟩ := hr m
  cases outcome with
  | error interrupt =>
    exact ⟨.error interrupt, m₁, added, fun h => runOn_bind_of_error (hrun h) next, hadded⟩
  | ok a =>
    obtain ⟨outcome, m₂, more, hmore, hmoreAdded⟩ := hnext a m₁
    refine ⟨outcome, m₂, added ++ more, fun h => ?_, ?_⟩
    · rw [runOn_bind_of_ok (hrun h) next, hmore, Array.append_assoc]
    · intro e he
      exact (Array.mem_append.mp he).elim (hadded e) (hmoreAdded e)

theorem appendsOnly_push (v : Value) : AppendsOnly allowed (push v) := .of_silent fun _ _ => rfl

theorem appendsOnly_throw (interrupt : Interrupt) :
    AppendsOnly allowed (throw interrupt : Routine α) := .of_silent fun _ _ => rfl

theorem appendsOnly_record {e : Event} (he : allowed e) : AppendsOnly allowed (record e) :=
  .of_event (fun _ => e) (fun _ => he) fun _ _ => rfl

end Routine

/-- The event of a pop from an empty stack. -/
def Event.underflow : Event := .recovered underflowMessage

theorem Answers.appendsOnly {r : Routine Unit} (h : Answers r) (allowed : Event → Prop) :
    AppendsOnly allowed r := by
  cases h with
  | refuses cause => exact appendsOnly_throw _
  | pushes values =>
    induction values with
    | nil => exact .of_silent fun _ _ => rfl
    | cons v values ih => exact .bind (appendsOnly_push v) fun _ => ih

namespace Effect

theorem appendsOnly_ask (message : String) : AppendsOnly (· ≠ .underflow) (ask message) := by
  refine .of_event (fun _ => .prompted message) (fun _ => nofun) fun m h => ?_
  rw [runOn_ask, runOn_ask]
  rfl

theorem appendsOnly_readClock : AppendsOnly (· ≠ .underflow) readClock := by
  refine .of_silent fun m h => ?_
  rw [runOn_readClock, runOn_readClock]
  rfl

theorem takes_runSleep : Takes (AppendsOnly (· ≠ .underflow)) 1 runSleep := by
  refine .number fun seconds => .done ?_
  dsimp only
  split
  · exact appendsOnly_throw _
  · exact appendsOnly_record nofun

/-- An effect takes its operands, and then no more values. -/
theorem takes (eff : Effect) : Takes (AppendsOnly (· ≠ .underflow)) eff.arity eff.run := by
  cases eff with
  | print => exact .text fun _ => .done (appendsOnly_record nofun)
  | input =>
    exact .text fun message => .done (.bind (appendsOnly_ask message) fun _ => appendsOnly_push _)
  | exit =>
    exact .number fun _ => .done (.bind (appendsOnly_record nofun) fun _ => appendsOnly_throw _)
  | depth => exact .done (.of_silent fun _ _ => rfl)
  | define =>
    refine .text fun name => .operand fun v => .done (.bind (.of_silent fun _ _ => rfl) fun _ => ?_)
    exact .of_event (fun m => .dumped m.store) (fun _ => nofun) fun _ _ => rfl
  | names => exact .done (.of_silent fun _ _ => rfl)
  | free =>
    refine .text fun name => .done (.bind (.of_silent fun _ _ => rfl) fun _ => ?_)
    exact .of_event (fun m => .dumped m.store) (fun _ => nofun) fun _ _ => rfl
  | now => exact .done (.bind appendsOnly_readClock fun _ => appendsOnly_push _)
  | sleep => exact takes_runSleep

end Effect

/-! ### Control -/

namespace Control

variable {evaluate : String → Routine Unit}

theorem takes_popBinding {rest : Routine Unit → Prop} {next : Binding → Routine Unit}
    (h : ∀ b, rest (next b)) : Takes rest 3 (popBinding >>= next) := by
  have hnext : popBinding >>= next = (do
      let code ← popText
      let name ← popText
      let items ← popList
      next { items, name, code }) := by
    simp only [popBinding, bind_assoc, pure_bind]
  rw [hnext]
  exact .text fun _ => .text fun _ => .list fun _ => .done (h _)

/-- A control command takes its operands, and then evaluates code. -/
theorem takes (hevaluate : ∀ source, Assembled (fun _ => True) (evaluate source)) (bound : Nat)
    (ctl : Control) :
    Takes (Assembled (fun _ => True)) ctl.arity (ctl.run evaluate bound) := by
  have hvisit : ∀ (b : Binding) item, Assembled (fun _ => True) (b.visit evaluate item) :=
    Binding.visit_assembled ⟨.effect .define, by decide, trivial⟩ hevaluate
  cases ctl with
  | evaluate => exact .text fun code => .done (hevaluate code)
  | choose => exact .truth fun _ => .text fun _ => .text fun _ => .done (hevaluate _)
  | loop =>
    exact .text fun body => .text fun condition =>
      .done (whileTrue_assembled hevaluate condition body bound)
  | forEach => exact takes_popBinding fun b => .forM (hvisit b) b.items
  | mapEach =>
    refine takes_popBinding fun b => .bind (.mapM (fun item => ?_) b.items) fun _ => .push _
    exact .bind (hvisit b item) fun _ => .pop
  | filterEach =>
    refine takes_popBinding fun b => .bind (.mapM (fun item => ?_) b.items) fun _ => .push _
    exact .bind (hvisit b item) fun _ => .bind .popTruth fun _ => .pure _

end Control

/-- A command takes its operands.  What it does then does not depend on the
history, and only a control command may take further values. -/
theorem Command.takes (bound : Nat) (c : Command) :
    Takes (AppendsOnly fun e => (∃ ctl, c = .control ctl) ∨ e ≠ .underflow) c.arity
      (c.run (evaluate bound) bound) := by
  cases c with
  | operator op => exact op.takes.mono fun _ h => h.appendsOnly _
  | effect eff => exact eff.takes.mono fun _ h => h.mono fun _ he => Or.inr he
  | control ctl =>
    exact (ctl.takes (evaluate_assembled bound) bound).mono fun _ h =>
      h.appends.only fun _ => Or.inl ⟨ctl, rfl⟩

end ReversePolish
