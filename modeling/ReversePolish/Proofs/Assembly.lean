/-
ReversePolish/Proofs/Assembly.lean

What an evaluation is put together from.  Every routine of an evaluation is
assembled from a few primitive ones, and the log announces a token before
anything is done for it.  `Routine.Assembled announced` says both at once:
the routine consists of the primitives below, and those that reach beyond the
operands on the stack occur only if their command is among the tokens
announced.

Main observation: every evaluation is assembled (`evaluate_assembled`), with
nothing announced beforehand.  A fact about all runs then needs no more than
one case for each primitive, by induction on the assembly.
-/
import ReversePolish.Evaluate

namespace ReversePolish

/-! ### What may happen under given announcements -/

/-- The events that a routine records outright: notes of all kinds, and what
only its own command may do. -/
def Event.Permitted (announced : String → Prop) : Event → Prop
  | commented _ | recovered _ | commandEntered _ | exitRequested _ => True
  | printed _ => announced Effect.print.name
  | slept _ => announced Effect.sleep.name
  | _ => False

/-- The interrupts that a routine raises outright.  The only fault among them
is a misspelled number. -/
def Interrupt.Permitted (announced : String → Prop) : Interrupt → Prop
  | exit _ => announced Effect.exit.name
  | fault (.misspelledNumber text) => Numeral.read text = .misspelled
  | fault _ => False
  | refusal _ | exhausted => True

/-- The commands that bind a variable. -/
def binders : List Command :=
  [.effect .define, .control .forEach, .control .mapEach, .control .filterEach]

/-- The announcements after one more token. -/
def announcing (token : String) (announced : String → Prop) : String → Prop :=
  fun t => t = token ∨ announced t

namespace Routine

/-! ### Assembled routines -/

inductive Assembled : (announced : String → Prop) → {α : Type} → Routine α → Prop where
  | pure {announced} {α : Type} (a : α) : Assembled announced (pure a)
  | bind {announced} {α β : Type} {r : Routine α} {next : α → Routine β} :
      Assembled announced r → (∀ a, Assembled announced (next a)) →
      Assembled announced (r >>= next)
  | throw {announced} {α : Type} (interrupt : Interrupt) :
      interrupt.Permitted announced → Assembled announced (throw interrupt : Routine α)
  | recovering {announced} {r : Routine Unit} :
      Assembled announced r → (∀ cause, Assembled announced (recover cause)) →
      Assembled announced (recovering r)
  | record {announced} (e : Event) : e.Permitted announced → Assembled announced (record e)
  | push {announced} (v : Value) : Assembled announced (push v)
  | pop {announced} : Assembled announced pop
  | depth {announced} : announced Effect.depth.name → Assembled announced Effect.runDepth
  | define {announced} (name : String) (v : Value) :
      (∃ c ∈ binders, announced c.name) → Assembled announced (define name v)
  | free {announced} (name : String) :
      announced Effect.free.name → Assembled announced (free name)
  | dumpStore {announced} : Assembled announced dumpStore
  | names {announced} : announced Effect.names.name → Assembled announced Effect.runNames
  | lookup {announced} (name : String) {otherwise : Routine Unit} :
      announced name → Assembled announced otherwise →
      Assembled announced do
        match (← get).store.lookup? name with
        | some v => push v
        | none => otherwise
  | ask {announced} (message : String) :
      announced Effect.input.name → Assembled announced (ask message)
  | readClock {announced} : announced Effect.now.name → Assembled announced readClock
  | collect {announced} {evaluate : String → Routine Unit} (token : String) {body : String} :
      Assembled announced (evaluate body) → Assembled announced (collect evaluate token body)
  | trace {announced} (token : String) {r : Routine Unit} :
      Assembled (announcing token announced) r → Assembled announced (do trace token; r)
  | settle {announced} : Assembled announced settle

variable {announced : String → Prop} {α β : Type}

theorem Assembled.refuse (cause : Refusal) : Assembled announced (refuse cause : Routine α) :=
  .throw _ trivial

theorem Assembled.forM {step : α → Routine Unit} (h : ∀ a, Assembled announced (step a))
    (items : List α) : Assembled announced (items.forM step) := by
  induction items with
  | nil => exact .pure ()
  | cons a items ih => exact .bind (h a) fun _ => ih

theorem Assembled.mapM {step : α → Routine β} (h : ∀ a, Assembled announced (step a))
    (items : List α) : Assembled announced (items.mapM step) := by
  induction items with
  | nil =>
    rw [List.mapM_nil]
    exact .pure []
  | cons a items ih =>
    rw [List.mapM_cons]
    exact .bind (h a) fun _ => .bind ih fun _ => .pure _

/-! ### Operands -/

/-- The one way in which a coercion fails. -/
theorem read_of_toNumber_error {v : Value} {cause : Fault} (h : v.toNumber = .error cause) :
    Interrupt.Permitted announced (.fault cause) := by
  cases v with
  | text s =>
    have hread : Value.numberOfText s = .error cause := h
    unfold Value.numberOfText at hread
    split at hread
    · cases hread
    · -- a misspelled number, and the fault names it
      obtain rfl := Except.error.inj hread
      assumption
    · cases hread
  | number | truth | list => cases h

theorem Assembled.toNumber (v : Value) : Assembled announced (ofExcept v.toNumber) := by
  cases h : v.toNumber with
  | ok n => exact .pure n
  | error cause => exact .throw _ (read_of_toNumber_error h)

theorem Assembled.popNumber : Assembled announced popNumber := .bind .pop fun v => .toNumber v

theorem Assembled.popText : Assembled announced popText := .bind .pop fun _ => .pure _

theorem Assembled.popTruth : Assembled announced popTruth := .bind .pop fun _ => .pure _

theorem Assembled.popList : Assembled announced popList := .bind .pop fun _ => .pure _

theorem Assembled.popIndex : Assembled announced popIndex := .bind .popNumber fun _ => .pure _

theorem Assembled.cast (v : Value) (kindName : String) :
    Assembled announced (ofExcept (v.cast kindName)) := by
  unfold Value.cast
  split
  · rename_i kind hkind
    cases kind with
    | number =>
      unfold Value.coerce
      cases h : v.toNumber with
      | ok n => exact .pure _
      | error cause => exact .throw _ (read_of_toNumber_error h)
    | text | truth | list => exact .pure _
  · exact .pure _

end Routine

open Routine

variable {announced : String → Prop}

/-! ### Operators -/

namespace Operator

theorem onNumbers_assembled (f : Number → Number → Value) : Assembled announced (onNumbers f) :=
  .bind .popNumber fun _ => .bind .popNumber fun _ => .push _

theorem onTruths_assembled (f : Bool → Bool → Bool) : Assembled announced (onTruths f) :=
  .bind .popTruth fun _ => .bind .popTruth fun _ => .push _

theorem onTexts_assembled (f : String → String → Value) : Assembled announced (onTexts f) :=
  .bind .popText fun _ => .bind .popText fun _ => .push _

theorem runRepeat_assembled : Assembled announced runRepeat := by
  refine .bind .pop fun times => .bind .pop fun subject => .bind (.toNumber times) fun n => ?_
  dsimp only
  split
  · exact .bind (.refuse _) fun _ => .push _
  · exact .push _

theorem runDecode_assembled : Assembled announced runDecode := by
  refine .bind .popNumber fun code => ?_
  cases charOfCode? code.toCodePoint with
  | some c => exact .push _
  | none => exact .refuse _

theorem runEncode_assembled : Assembled announced runEncode := by
  refine .bind .popText fun s => ?_
  cases s.toList with
  | nil => exact .refuse _
  | cons c rest => exact .push _

theorem runGet_assembled : Assembled announced runGet := by
  refine .bind .popIndex fun index => .bind .popList fun items => ?_
  cases items[index]? with
  | some v => exact .push v
  | none => exact .refuse _

theorem runRange_assembled : Assembled announced runRange := by
  refine .bind .popIndex fun step => .bind .popIndex fun stop => .bind .popIndex fun start => ?_
  have hrest : ∀ length, Assembled announced (do
      if maxLength < length then refuse (.rangeTooLong length)
      push (.list ((List.range length).map fun i => .ofNat (start + i * step)))) := by
    intro length
    split
    · exact .bind (.refuse _) fun _ => .push _
    · exact .push _
  dsimp only
  split
  · exact .bind (.refuse _) fun _ => hrest _
  · exact hrest _

/-- A result if the operands fit, else a refusal. -/
theorem fit_assembled (fits : Prop) [Decidable fits] (v : Value) (cause : Refusal) :
    Assembled announced (if fits then push v else refuse cause) := by
  split
  · exact .push v
  · exact .refuse cause

theorem run_assembled (op : Operator) : Assembled announced op.run := by
  cases op with
  | add | subtract | multiply | divide | remainder | power | less => exact onNumbers_assembled _
  | conjoin | disjoin => exact onTruths_assembled _
  | equal | concat | split | find => exact onTexts_assembled _
  | round => exact .bind .popNumber fun _ => .push _
  | negate => exact .bind .popTruth fun _ => .push _
  | repeatText => exact runRepeat_assembled
  | decode => exact runDecode_assembled
  | encode => exact runEncode_assembled
  | replace =>
    exact .bind .popText fun _ => .bind .popText fun _ => .bind .popText fun _ => .push _
  | join => exact .bind .popText fun _ => .bind .popList fun _ => .push _
  | get => exact runGet_assembled
  | set =>
    exact .bind .pop fun _ => .bind .popIndex fun _ => .bind .popList fun _ => fit_assembled ..
  | delete => exact .bind .popIndex fun _ => .bind .popList fun _ => fit_assembled ..
  | insert =>
    exact .bind .pop fun _ => .bind .popIndex fun _ => .bind .popList fun _ => fit_assembled ..
  | append => exact .bind .pop fun _ => .bind .popList fun _ => .push _
  | sort => exact .bind .popList fun _ => .push _
  | reverse => exact .bind .popList fun _ => .push _
  | range => exact runRange_assembled
  | length => exact .bind .pop fun _ => .push _
  | drop => exact .bind .pop fun _ => .pure _
  | kind => exact .bind .pop fun _ => .push _
  | cast =>
    exact .bind .popText fun name => .bind .pop fun v => .bind (.cast v name) fun _ => .push _
  | duplicate => exact .bind .pop fun _ => .bind (.push _) fun _ => .push _
  | swap => exact .bind .pop fun _ => .bind .pop fun _ => .bind (.push _) fun _ => .push _

end Operator

/-! ### Effects -/

theorem Effect.run_assembled {eff : Effect} (h : announced eff.name) :
    Assembled announced eff.run := by
  cases eff with
  | print => exact .bind .popText fun line => .record (.printed line) h
  | input => exact .bind .popText fun message => .bind (.ask message h) fun _ => .push _
  | exit =>
    refine .bind .popNumber fun n => .bind (.record (.exitRequested _) trivial) fun _ => ?_
    exact .throw (.exit _) h
  | depth => exact .depth h
  | define =>
    have hbinder : ∃ c ∈ binders, announced c.name := ⟨.effect .define, by decide, h⟩
    refine .bind .popText fun name => .bind .pop fun v => ?_
    exact .bind (.define name v hbinder) fun _ => .dumpStore
  | names => exact .names h
  | free => exact .bind .popText fun name => .bind (.free name h) fun _ => .dumpStore
  | now => exact .bind (.readClock h) fun _ => .push _
  | sleep =>
    refine .bind .popNumber fun seconds => ?_
    dsimp only
    split
    · exact .bind (.refuse _) fun _ => .record (.slept seconds) h
    · exact .record (.slept seconds) h

/-! ### Control -/

namespace Control

variable {evaluate : String → Routine Unit}

theorem whileTrue_assembled (hevaluate : ∀ source, Assembled announced (evaluate source))
    (condition body : String) (bound : Nat) :
    Assembled announced (whileTrue evaluate condition body bound) := by
  induction bound with
  | zero => exact .throw _ trivial
  | succ bound ih =>
    refine .bind (hevaluate condition) fun _ => .bind .popTruth fun holds => ?_
    cases holds with
    | false => exact .pure ()
    | true => exact .bind (hevaluate body) fun _ => ih

theorem popBinding_assembled : Assembled announced popBinding :=
  .bind .popText fun _ => .bind .popText fun _ => .bind .popList fun _ => .pure _

theorem Binding.visit_assembled (hbinder : ∃ c ∈ binders, announced c.name)
    (hevaluate : ∀ source, Assembled announced (evaluate source)) (b : Binding) (item : Value) :
    Assembled announced (b.visit evaluate item) :=
  .bind (.define b.name item hbinder) fun _ => hevaluate b.code

theorem run_assembled {ctl : Control} (h : announced ctl.name)
    (hevaluate : ∀ source, Assembled announced (evaluate source)) (bound : Nat) :
    Assembled announced (ctl.run evaluate bound) := by
  -- three of the six bind a variable, each under its own name
  have hvisit : Command.control ctl ∈ binders → ∀ (b : Binding) (item : Value),
      Assembled announced (b.visit evaluate item) := fun hbinder =>
    Binding.visit_assembled ⟨.control ctl, hbinder, h⟩ hevaluate
  cases ctl with
  | evaluate => exact .bind .popText fun code => hevaluate code
  | choose =>
    exact .bind .popTruth fun _ => .bind .popText fun _ => .bind .popText fun _ => hevaluate _
  | loop =>
    refine .bind .popText fun body => .bind .popText fun condition => ?_
    exact whileTrue_assembled hevaluate condition body bound
  | forEach =>
    exact .bind popBinding_assembled fun b => .forM (hvisit (by decide) b) b.items
  | mapEach =>
    refine .bind popBinding_assembled fun b => ?_
    refine .bind (.mapM (fun item => ?_) b.items) fun _ => .push _
    exact .bind (hvisit (by decide) b item) fun _ => .pop
  | filterEach =>
    refine .bind popBinding_assembled fun b => ?_
    refine .bind (.mapM (fun item => ?_) b.items) fun _ => .push _
    exact .bind (hvisit (by decide) b item) fun _ => .bind .popTruth fun _ => .pure _

end Control

/-! ### Tokens and sources -/

section Tokens

variable {evaluate : String → Routine Unit}

theorem recover_assembled (cause : Refusal) : Assembled announced (recover cause) :=
  .bind (.forM .push _) fun _ => .record (.recovered _) trivial

theorem execute_assembled {name : String} (h : announced name)
    (hevaluate : ∀ source, Assembled announced (evaluate source)) (bound : Nat) :
    Assembled announced (execute evaluate bound name) := by
  unfold execute
  cases hname : Command.ofName? name with
  | none => exact .push _
  | some command =>
    refine .bind (.record (.commandEntered name) trivial) fun _ => ?_
    refine .recovering ?_ recover_assembled
    -- the command's own name is the one announced
    obtain rfl := Command.name_of_ofName? hname
    cases command with
    | operator op => exact op.run_assembled
    | effect eff => exact eff.run_assembled h
    | control ctl => exact ctl.run_assembled h hevaluate bound

theorem evaluateWord_assembled {name : String} (h : announced name)
    (hevaluate : ∀ source, Assembled announced (evaluate source)) (bound : Nat) :
    Assembled announced (evaluateWord evaluate bound name) := by
  refine .lookup name h ?_
  split
  · exact .record (.commented name) trivial
  · exact execute_assembled h hevaluate bound

theorem evaluateToken_assembled {token : String} (h : announced token)
    (hevaluate : ∀ source, Assembled announced (evaluate source)) (bound : Nat) :
    Assembled announced (evaluateToken evaluate bound token) := by
  unfold evaluateToken
  cases htoken : Token.ofText token with
  | number n => exact .push _
  | misspelled spelling =>
    obtain ⟨rfl, hread⟩ := Token.ofText_eq_misspelled htoken
    exact .throw _ hread
  | truth b => exact .push _
  | text inside => exact .push _
  | list body => exact .collect token (hevaluate body)
  | word name => exact evaluateWord_assembled (Token.ofText_eq_word htoken ▸ h) hevaluate bound

/-- A token is announced before it is dealt with, and stays so in the code
that it evaluates. -/
theorem visitToken_assembled {token : String}
    (hevaluate : ∀ source, Assembled (announcing token announced) (evaluate source))
    (bound : Nat) : Assembled announced (visitToken evaluate bound token) :=
  .trace token (evaluateToken_assembled (Or.inl rfl) hevaluate bound)

end Tokens

/-- Every evaluation is assembled, whatever was announced before. -/
theorem evaluate_assembled (bound : Nat) (source : String) :
    Assembled announced (evaluate bound source) := by
  induction bound generalizing source announced with
  | zero => exact .throw _ trivial
  | succ bound ih =>
    exact .bind (.forM (fun token => visitToken_assembled ih bound) _) fun _ => .settle

end ReversePolish
