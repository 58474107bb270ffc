/-
ReversePolish/Proofs/Journal.lean

What runs do to the variables.  `Routine.Performs r m ops` says that the run of
a routine performs the operations `ops` on the store, in this order: those of
its parts one after the other, up to where it ends.  `Routine.Comes` says the
same of a run that has come to one of its parts.

Every evaluation has such a journal (`Assembled.journaled`), and so has the way
to every token that an evaluation arrives at, to any depth of list literals,
control commands and loops (`Arrives.leads`).  The store that is found there
is the one that the operations leave (`Performs.store_eq`,
`Comes.store_eq`).  So all that a history tells about a store holds of the
variables of a session at any time (`Session.store_chronicled`).
-/
import ReversePolish.Proofs.Channels
import ReversePolish.Proofs.Chronicle
import ReversePolish.Proofs.Exchange
import ReversePolish.Proofs.Recovery

namespace ReversePolish

open Store (Operation)

namespace Routine

variable {α β : Type} {r : Routine α} {next : α → Routine β} {m m' : Machine}
  {ops : List Operation}

/-! ### The operations of a run -/

/-- The run of a routine on a machine performs the operations, in this
order. -/
inductive Performs : {α : Type} → Routine α → Machine → List Operation → Prop where
  | define (name : String) (v : Value) (m : Machine) :
      Performs (define name v) m [.define name v]
  | free (name : String) (m : Machine) : Performs (free name) m [.free name]
  /-- A routine that has nothing to do with the store. -/
  | still {α : Type} {r : Routine α} (m : Machine) :
      (∀ m, (runOn r m).2.store = m.store) → Performs r m []
  | bind {α β : Type} {r : Routine α} {next : α → Routine β} {m m₁ : Machine} {a : α}
      {ops later : List Operation} :
      Performs r m ops → runOn r m = (.ok a, m₁) → Performs (next a) m₁ later →
      Performs (r >>= next) m (ops ++ later)
  /-- What comes after an early end is not performed. -/
  | stop {α β : Type} {r : Routine α} {next : α → Routine β} {m m₁ : Machine}
      {interrupt : Interrupt} {ops : List Operation} :
      Performs r m ops → runOn r m = (.error interrupt, m₁) → Performs (r >>= next) m ops
  /-- A recovery performs nothing. -/
  | recovering {r : Routine Unit} {m : Machine} {ops : List Operation} :
      Performs r m ops → Performs (recovering r) m ops

/-- The run of a routine comes to one of its parts when the machine is `site`,
and has performed the operations so far. -/
inductive Comes : {α β : Type} → Routine α → Machine → List Operation → Routine β → Machine →
    Prop where
  | here {α : Type} (r : Routine α) (m : Machine) : Comes r m [] r m
  | first {α β γ : Type} {r : Routine α} {next : α → Routine β} {part : Routine γ}
      {m site : Machine} {ops : List Operation} :
      Comes r m ops part site → Comes (r >>= next) m ops part site
  | later {α β γ : Type} {r : Routine α} {next : α → Routine β} {part : Routine γ}
      {m m₁ site : Machine} {a : α} {ops later : List Operation} :
      Performs r m ops → runOn r m = (.ok a, m₁) → Comes (next a) m₁ later part site →
      Comes (r >>= next) m (ops ++ later) part site
  | recovering {γ : Type} {r : Routine Unit} {part : Routine γ} {m site : Machine}
      {ops : List Operation} : Comes r m ops part site → Comes (recovering r) m ops part site

theorem store_recovering (r : Routine Unit) (m : Machine) :
    (runOn (recovering r) m).2.store = (runOn r m).2.store := by
  rcases hrun : runOn r m with ⟨outcome, m₁⟩
  by_cases hrefusal : ∃ cause, outcome = .error (.refusal cause)
  · obtain ⟨cause, rfl⟩ := hrefusal
    rw [runOn_recovering_of_refusal hrun, runOn_recover]
    rfl
  · rw [runOn_recovering_of_ne hrun hrefusal]

/-- A run leaves the store that its operations leave. -/
theorem Performs.store_eq (h : Performs r m ops) :
    (runOn r m).2.store = ops.foldl Store.apply m.store := by
  induction h with
  | define name v m => rfl
  | free name m => rfl
  | still m hstill => exact hstill m
  | bind _ hrun _ ih ihnext =>
    rw [runOn_bind_of_ok hrun, ihnext, List.foldl_append, ← ih, hrun]
  | stop _ hrun ih => rw [runOn_bind_of_error hrun, ← ih, hrun]
  | recovering _ ih => rw [store_recovering, ih]

/-- The same for a run that has come to one of its parts. -/
theorem Comes.store_eq {part : Routine β} {site : Machine} (h : Comes r m ops part site) :
    site.store = ops.foldl Store.apply m.store := by
  induction h with
  | here r m => rfl
  | first _ ih => exact ih
  | later hperforms hrun _ ih =>
    rw [ih, List.foldl_append, ← hperforms.store_eq, hrun]
  | recovering _ ih => exact ih

/-- One part inside the other. -/
theorem Comes.trans {γ : Type} {middle : Routine β} {part : Routine γ} {between site : Machine}
    {more : List Operation} (h : Comes r m ops middle between)
    (h' : Comes middle between more part site) : Comes r m (ops ++ more) part site := by
  induction h with
  | here r m => exact h'
  | first _ ih => exact .first (ih h')
  | later hperforms hrun _ ih =>
    rw [List.append_assoc]
    exact .later hperforms hrun (ih h')
  | recovering _ ih => exact .recovering (ih h')

/-! ### Every evaluation has a journal -/

/-- On every machine the routine performs some operations. -/
def Journaled (r : Routine α) : Prop := ∀ m, ∃ ops, Performs r m ops

theorem Journaled.of_store (h : ∀ m, (runOn r m).2.store = m.store) : Journaled r :=
  fun m => ⟨[], .still m h⟩

theorem Journaled.bind (hr : Journaled r) (hnext : ∀ a, Journaled (next a)) :
    Journaled (r >>= next) := by
  intro m
  obtain ⟨ops, hops⟩ := hr m
  rcases hrun : runOn r m with ⟨interrupt | a, m₁⟩
  · exact ⟨ops, .stop hops hrun⟩
  · obtain ⟨later, hlater⟩ := hnext a m₁
    exact ⟨ops ++ later, .bind hops hrun hlater⟩

theorem Journaled.recovering {r : Routine Unit} (hr : Journaled r) :
    Journaled (recovering r) := by
  intro m
  obtain ⟨ops, hops⟩ := hr m
  exact ⟨ops, .recovering hops⟩

theorem journaled_get : Journaled (get : Routine Machine) := .of_store fun _ => rfl

theorem journaled_record (e : Event) : Journaled (record e) := .of_store fun _ => rfl

theorem store_pop (m : Machine) : (runOn pop m).2.store = m.store := by
  rw [runOn_pop_top]

theorem journaled_pop : Journaled pop := .of_store store_pop

theorem journaled_ofExcept (result : Except Fault α) : Journaled (ofExcept result) := by
  refine .of_store fun m => ?_
  rw [runOn_ofExcept]

theorem Assembled.journaled {announced : String → Prop} (h : Assembled announced r) :
    Journaled r := by
  induction h with
  | pure a => exact .of_store fun _ => rfl
  | bind _ _ ihr ihnext => exact ihr.bind ihnext
  | throw interrupt => exact .of_store fun _ => rfl
  | recovering _ _ ihr _ => exact ihr.recovering
  | record e _ => exact journaled_record e
  | push v => exact .of_store fun _ => rfl
  | pop => exact journaled_pop
  | depth => exact .of_store fun _ => rfl
  | define name v _ => exact fun m => ⟨_, .define name v m⟩
  | free name _ => exact fun m => ⟨_, .free name m⟩
  | dumpStore => exact .of_store fun _ => rfl
  | names => exact .of_store fun _ => rfl
  | lookup name _ _ ih =>
    refine journaled_get.bind fun m => ?_
    cases m.store.lookup? name with
    | some v => exact .of_store fun _ => rfl
    | none => exact ih
  | ask message _ =>
    refine .of_store fun m => ?_
    rw [runOn_ask]
  | readClock _ =>
    refine .of_store fun m => ?_
    rw [runOn_readClock]
  | collect token _ ih =>
    refine journaled_get.bind fun m => (journaled_record _).bind fun _ => ih.bind fun _ => ?_
    refine .of_store fun m₁ => ?_
    rw [runOn_bind_of_ok (runOn_popAbove ..)]
    rfl
  | trace token _ ih => exact .bind (.of_store fun _ => rfl) fun _ => ih
  | settle => exact .of_store fun _ => rfl

/-! ### Every way has a journal -/

/-- The run of a routine comes to one of its parts, after some operations. -/
def Leads (r : Routine α) (m : Machine) (part : Routine β) (site : Machine) : Prop :=
  ∃ ops, Comes r m ops part site

namespace Leads

variable {γ : Type} {part : Routine γ} {site : Machine}

theorem here (r : Routine α) (m : Machine) : Leads r m r m := ⟨[], .here r m⟩

theorem first (h : Leads r m part site) : Leads (r >>= next) m part site := by
  obtain ⟨ops, hcomes⟩ := h
  exact ⟨ops, .first hcomes⟩

theorem later {a : α} (hr : Journaled r) (hrun : runOn r m = (.ok a, m'))
    (h : Leads (next a) m' part site) : Leads (r >>= next) m part site := by
  obtain ⟨ops, hperforms⟩ := hr m
  obtain ⟨later, hcomes⟩ := h
  exact ⟨ops ++ later, .later hperforms hrun hcomes⟩

theorem recovering {r : Routine Unit} (h : Leads r m part site) :
    Leads (recovering r) m part site := by
  obtain ⟨ops, hcomes⟩ := h
  exact ⟨ops, .recovering hcomes⟩

theorem trans {middle : Routine β} {between : Machine} (h : Leads r m middle between)
    (h' : Leads middle between part site) : Leads r m part site := by
  obtain ⟨ops, hcomes⟩ := h
  obtain ⟨more, hcomes'⟩ := h'
  exact ⟨ops ++ more, hcomes.trans hcomes'⟩

end Leads

section Traversals

variable {items : List α} {a : α} {start : Machine}

theorem Reaches.leads_forM {turn : α → Routine Unit} (hturn : ∀ a, Journaled (turn a))
    (h : Reaches turn items m a start) : Leads (items.forM turn) m (turn a) start := by
  induction h with
  | here a items m => exact .first (.here (turn a) m)
  | later hfirst _ ih => exact .later (hturn _) hfirst ih

theorem Reaches.leads_mapM {turn : α → Routine β} (hturn : ∀ a, Journaled (turn a))
    (h : Reaches turn items m a start) : Leads (items.mapM turn) m (turn a) start := by
  induction h with
  | here a items m =>
    rw [List.mapM_cons]
    exact .first (.here (turn a) m)
  | later hfirst _ ih =>
    rw [List.mapM_cons]
    exact .later (hturn _) hfirst (.first ih)

end Traversals

theorem store_popText (m : Machine) : (runOn popText m).2.store = m.store := by
  rw [popText, runOn_bind_of_ok (runOn_pop_top m)]
  rfl

theorem journaled_popText : Journaled popText := .of_store store_popText

theorem journaled_popTruth : Journaled popTruth :=
  journaled_pop.bind fun _ => .of_store fun _ => rfl

theorem journaled_popList : Journaled popList :=
  journaled_pop.bind fun _ => .of_store fun _ => rfl

end Routine

open Routine

/-! ### Control -/

namespace Control

variable {evaluate : String → Routine Unit} {code : String} {m start : Machine}

theorem journaled_popBinding : Journaled popBinding :=
  journaled_popText.bind fun _ => journaled_popText.bind fun _ => journaled_popList.bind fun _ =>
    .of_store fun _ => rfl

theorem Binding.journaled_visit (hevaluate : ∀ code, Journaled (evaluate code)) (b : Binding)
    (item : Value) : Journaled (b.visit evaluate item) :=
  .bind (fun m => ⟨_, .define b.name item m⟩) fun _ => hevaluate b.code

theorem LoopCalls.leads (hevaluate : ∀ code, Journaled (evaluate code)) {condition body : String}
    {bound : Nat} (h : LoopCalls evaluate condition body bound m code start) :
    Leads (whileTrue evaluate condition body bound) m (evaluate code) start := by
  have htest : Journaled (do evaluate condition; popTruth) :=
    (hevaluate condition).bind fun _ => journaled_popTruth
  induction h with
  | condition bound m => exact .first (.here (evaluate condition) m)
  | body htested =>
    rw [whileTrue_succ]
    exact .later htest htested (.first (.here (evaluate body) _))
  | again htested hbody _ ih =>
    rw [whileTrue_succ]
    exact .later htest htested (.later (hevaluate body) hbody ih)

/-- The code of a loop over a list is evaluated right after the name has been
bound. -/
theorem Binding.leads_visit (b : Binding) (item : Value) (m : Machine) :
    Leads (b.visit evaluate item) m (evaluate b.code)
      { m with store := m.store.define b.name item } :=
  .later (fun m => ⟨_, .define b.name item m⟩) rfl (.here (evaluate b.code) _)

/-- The way to the code that a control command evaluates. -/
theorem Calls.leads (hevaluate : ∀ code, Journaled (evaluate code)) {ctl : Control} {bound : Nat}
    (h : ctl.Calls evaluate bound m code start) :
    Leads (ctl.run evaluate bound) m (evaluate code) start := by
  cases ctl with
  | evaluate =>
    obtain ⟨_, m₁, htaken, rfl, rfl⟩ := h
    exact .later journaled_popText htaken (.here (evaluate code) start)
  | choose =>
    obtain ⟨_, m₁, htaken, rfl, rfl⟩ := h
    have hoperands : Journaled popChoice :=
      journaled_popTruth.bind fun _ => journaled_popText.bind fun _ => journaled_popText.bind
        fun _ => .of_store fun _ => rfl
    rw [run_choose]
    exact .later hoperands htaken (.here (evaluate code) start)
  | loop =>
    obtain ⟨operands, m₁, htaken, hcalls⟩ := h
    have hoperands : Journaled popLoop :=
      journaled_popText.bind fun _ => journaled_popText.bind fun _ => .of_store fun _ => rfl
    rw [run_loop]
    exact .later hoperands htaken (hcalls.leads hevaluate)
  | forEach =>
    obtain ⟨b, m₁, htaken, item, m₂, hreaches, rfl, rfl⟩ := h
    refine .later journaled_popBinding htaken ?_
    exact (hreaches.leads_forM (b.journaled_visit hevaluate)).trans (b.leads_visit item m₂)
  | mapEach =>
    obtain ⟨b, m₁, htaken, item, m₂, hreaches, rfl, rfl⟩ := h
    refine .later journaled_popBinding htaken (.first ?_)
    refine (hreaches.leads_mapM fun item => ?_).trans (.first (b.leads_visit item m₂))
    exact (b.journaled_visit hevaluate item).bind fun _ => journaled_pop
  | filterEach =>
    obtain ⟨b, m₁, htaken, item, m₂, hreaches, rfl, rfl⟩ := h
    refine .later journaled_popBinding htaken (.first ?_)
    refine (hreaches.leads_mapM fun item => ?_).trans (.first (b.leads_visit item m₂))
    exact (b.journaled_visit hevaluate item).bind fun _ => journaled_popTruth.bind fun _ =>
      .of_store fun _ => rfl

end Control

/-! ### Evaluations -/

theorem evaluate_journaled (bound : Nat) (source : String) :
    Journaled (evaluate bound source) := by
  have hassembled : Assembled (fun _ => False) (evaluate bound source) :=
    evaluate_assembled bound source
  exact hassembled.journaled

theorem visitToken_journaled (bound : Nat) (token : String) :
    Journaled (visitToken (evaluate bound) bound token) := by
  have hassembled : Assembled (fun _ => False) (visitToken (evaluate bound) bound token) :=
    visitToken_assembled (evaluate_assembled bound) bound
  exact hassembled.journaled

/-- The way to the code that a token evaluates. -/
theorem Enters.leads {bound : Nat} {token code : String} {m start : Machine}
    (h : Enters (evaluate bound) bound token m code start) :
    Leads (evaluateToken (evaluate bound) bound token) m (evaluate bound code) start := by
  cases h with
  | list _ htoken =>
    rw [evaluateToken, htoken]
    refine .later journaled_get (runOn_get m) ?_
    exact .later (journaled_record _) rfl (.first (.here (evaluate bound code) _))
  | @control ctl _ _ _ hunbound hcalls =>
    -- the token is the name of a command, and of no variable
    have htoken : Token.ofText ctl.name = .word ctl.name := Command.ofText_name (.control ctl)
    have hhash : '#' ∉ ctl.name.toList := Command.hash_not_mem_name (.control ctl)
    have hname : Command.ofName? ctl.name = some (.control ctl) :=
      Command.ofName?_name (.control ctl)
    rw [evaluateToken, htoken]
    refine .later journaled_get (runOn_get m) ?_
    rw [hunbound]
    dsimp only
    rw [if_neg hhash, execute, hname]
    exact .later (journaled_record _) rfl (.recovering (hcalls.leads (evaluate_journaled bound)))

/-- The way to a token, to any depth. -/
theorem Arrives.leads {bound : Nat} {source token : String} {m site : Machine}
    (h : Arrives bound source m token site) :
    ∃ inner, Leads (evaluate bound source) m (visitToken (evaluate inner) inner token) site := by
  induction h with
  | token hreaches =>
    exact ⟨_, .first (hreaches.leads_forM (visitToken_journaled _))⟩
  | @inside bound _ outer _ _ _ _ _ _ hreaches henters _ ih =>
    obtain ⟨inner, hleads⟩ := ih
    refine ⟨inner, .first ?_⟩
    refine (hreaches.leads_forM (visitToken_journaled bound)).trans (.later ?_ rfl ?_)
    · exact .of_store fun _ => rfl
    · exact henters.leads.trans hleads

/-! ### The commands for variables -/

/-- The machine after a command that has left the given variables and shown
them. -/
def Machine.dumping (m : Machine) (name : String) (store : Store) : Machine :=
  { m.noting name with store, history := (m.noting name).history.push (.dumped store) }

/-- Only the variables show in the log. -/
theorem Machine.log_dumping (m : Machine) (name : String) (store : Store) :
    (m.dumping name store).history.log = m.history.log ++ (store.display ++ "\n") := by
  rw [dumping, History.log_push, noting, History.log_push]
  simp [Event.log]

/-- What the commands do that list, bind and free variables. -/
structure VariableCommands (run : Effect → Routine Unit) (m : Machine) : Prop where
  names : runOn (run .names) m = (.ok (),
    { m.noting Effect.names.name with stack := m.stack.push (.ofTexts m.store.names) })
  define (v k : Value) : runOn (run .define) (m.holding [v, k]) =
    (.ok (), m.dumping Effect.define.name (m.store.define k.toText v))
  define_performs (v k : Value) :
    Performs (run .define) (m.holding [v, k]) [.define k.toText v]
  free (k : Value) : runOn (run .free) (m.holding [k]) =
    (.ok (), m.dumping Effect.free.name (m.store.free k.toText))
  free_performs (k : Value) : Performs (run .free) (m.holding [k]) [.free k.toText]
  dump (name : String) (store : Store) :
    (m.dumping name store).history.log = m.history.log ++ (store.display ++ "\n")

section Commands

variable (evaluate : String → Routine Unit) (bound : Nat)

/-- An effect that ends normally has nothing to recover from. -/
theorem runOn_execute_effect {eff : Effect} {m m' : Machine}
    (h : runOn eff.run (m.noting eff.name) = (.ok (), m')) :
    runOn (execute evaluate bound eff.name) m = (.ok (), m') := by
  rw [← Command.name, runOn_execute_name]
  exact runOn_recovering_of_ne h (by simp)

theorem performs_execute_effect {eff : Effect} {m : Machine} {ops : List Operation}
    (h : Performs eff.run (m.noting eff.name) ops) :
    Performs (execute evaluate bound eff.name) m ops := by
  have hname : Command.ofName? eff.name = some (.effect eff) := Command.ofName?_name (.effect eff)
  rw [execute, hname]
  exact .bind (.still m fun _ => rfl) rfl (.recovering h)

theorem variableCommands (m : Machine) :
    VariableCommands (fun eff => execute evaluate bound eff.name) m where
  names := runOn_execute_effect evaluate bound rfl
  define v k := runOn_execute_effect evaluate bound rfl
  define_performs v k := by
    apply performs_execute_effect
    have hname : runOn popText ((m.noting Effect.define.name).holding [v, k]) =
        (.ok k.toText, (m.noting Effect.define.name).holding [v]) := rfl
    have hvalue : runOn pop ((m.noting Effect.define.name).holding [v]) =
        (.ok v, m.noting Effect.define.name) := rfl
    refine .bind (.still _ store_popText) hname (.bind (.still _ store_pop) hvalue ?_)
    exact .bind (.define k.toText v _) rfl (.still _ fun _ => rfl)
  free k := runOn_execute_effect evaluate bound rfl
  free_performs k := by
    apply performs_execute_effect
    have hname : runOn popText ((m.noting Effect.free.name).holding [k]) =
        (.ok k.toText, m.noting Effect.free.name) := rfl
    refine .bind (.still _ store_popText) hname ?_
    exact .bind (.free k.toText _) rfl (.still _ fun _ => rfl)
  dump := m.log_dumping

end Commands

/-! ### Sessions -/

namespace Session

variable {s : Session}

/-- Some steps perform the operations, in this order.  A step that has ended
early has performed those before its end. -/
inductive Performs (s : Session) : List Step → Machine → List Operation → Prop where
  | nil (m : Machine) : s.Performs [] m []
  | cons {step : Step} {steps : List Step} {m : Machine} {ops later : List Operation} :
      Routine.Performs (step.routine s) m ops →
      s.Performs steps (runOn (step.routine s) m).2 later →
      s.Performs (step :: steps) m (ops ++ later)

theorem Performs.store_eq {steps : List Step} {m : Machine} {ops : List Operation}
    (h : s.Performs steps m ops) :
    (s.machineAfter steps m).store = ops.foldl Store.apply m.store := by
  induction h with
  | nil m => rfl
  | cons hstep _ ih => rw [machineAfter, ih, List.foldl_append, hstep.store_eq]

theorem evaluatePrelude_journaled (hevaluator : ∀ code, Journaled (s.evaluator code))
    (code : String) : Journaled (s.evaluatePrelude code) :=
  (journaled_record _).bind fun _ => hevaluator code

theorem loadPrelude_journaled (hevaluator : ∀ code, Journaled (s.evaluator code)) :
    Journaled s.loadPrelude := by
  unfold loadPrelude
  split
  · exact .of_store fun _ => rfl
  · split
    · exact (journaled_ofExcept _).bind fun text => evaluatePrelude_journaled hevaluator text
    · exact journaled_record _
    · exact .of_store fun _ => rfl

theorem Step.journaled (hevaluator : ∀ code, Journaled (s.evaluator code)) (step : Step) :
    Journaled (step.routine s) := by
  cases step with
  | start prelude =>
    refine (journaled_ofExcept _).bind fun _ => ?_
    cases prelude with
    | none => exact .of_store fun _ => rfl
    | automatic => exact loadPrelude_journaled hevaluator
    | code source =>
      dsimp only
      split
      · exact .of_store fun _ => rfl
      · exact evaluatePrelude_journaled hevaluator source
  | loadPrelude => exact loadPrelude_journaled hevaluator
  | evaluatePrelude code => exact evaluatePrelude_journaled hevaluator code
  | run code =>
    refine .bind ?_ fun _ => .of_store fun _ => rfl
    refine journaled_get.bind fun _ => (hevaluator code).bind fun _ => ?_
    exact journaled_get.bind fun _ => .of_store fun _ => rfl

theorem exists_performs (hevaluator : ∀ code, Journaled (s.evaluator code)) (steps : List Step)
    (m : Machine) : ∃ ops, s.Performs steps m ops := by
  induction steps generalizing m with
  | nil => exact ⟨[], .nil m⟩
  | cons step steps ih =>
    obtain ⟨ops, hops⟩ := step.journaled hevaluator m
    obtain ⟨later, hlater⟩ := ih (runOn (step.routine s) m).2
    exact ⟨ops ++ later, .cons hops hlater⟩

/-- **The variables are an ordered map that their history tells.**  After any
operations on an empty store the names occur once each, a name is bound iff the
last operation on it has bound it, to the value of this operation, and the
names stand in the order of their births; so a name that is bound again keeps
its place, and one that is freed in between goes to the end.

Whatever steps a session takes from a machine without variables and however
they end, they perform such operations, and the store they leave is the one
told by them.  The same holds inside a run at every token it arrives at.  The
commands for variables list the names in this order and show them so in the
log. -/
theorem store_chronicled (settings : Settings) (folder : Folder) (bound : Nat) {m : Machine}
    (hfresh : m.store = .empty) (steps : List Step) :
    let s : Session := { settings, folder, evaluator := evaluate bound }
    let after := s.machineAfter steps m
    (∀ ops, Store.Chronicled ops (Store.replay ops)) ∧
    (∀ (store : Store) name v,
      (name ∈ store.names → (store.define name v).names = store.names) ∧
      ((store.free name).define name v).names = store.names.filter (· != name) ++ [name]) ∧
    (∃ ops, s.Performs steps m ops) ∧
    (∀ ops, s.Performs steps m ops → Store.Chronicled ops after.store ∧
      ∀ (code : String) {α : Type} (part : Routine α) site more,
        Comes (evaluate bound code) after more part site →
        Store.Chronicled (ops ++ more) site.store) ∧
    (∀ code token site, Arrives bound code after token site →
      ∃ inner more,
        Comes (evaluate bound code) after more (visitToken (evaluate inner) inner token) site) ∧
    ∀ site, VariableCommands (fun eff => execute (evaluate bound) bound eff.name) site := by
  intro s after
  have hjournaled : ∀ code, Journaled (s.evaluator code) := evaluate_journaled bound
  have hreplay : ∀ {ops}, s.Performs steps m ops → after.store = Store.replay ops := by
    intro ops hperforms
    rw [Store.replay, ← hfresh]
    exact hperforms.store_eq
  refine ⟨Store.chronicled_replay, fun store name v => ⟨fun hbound => ?_, ?_⟩,
    exists_performs hjournaled steps m, fun ops hperforms => ⟨?_, ?_⟩, ?_,
    variableCommands (evaluate bound) bound⟩
  · rw [Store.names_define, if_pos hbound]
  · have hfreed : name ∉ (store.free name).names := fun hmem =>
      (Store.mem_names_free.mp hmem).2 rfl
    rw [Store.names_define, if_neg hfreed, Store.names_free]
  · rw [hreplay hperforms]
    exact Store.chronicled_replay ops
  · -- what is performed on the way is added to the journal of the steps
    intro code α part site more hcomes
    have hsite : site.store = Store.replay (ops ++ more) := by
      rw [hcomes.store_eq, hreplay hperforms, Store.replay, Store.replay, List.foldl_append]
    rw [hsite]
    exact Store.chronicled_replay (ops ++ more)
  · intro code token site harrives
    exact harrives.leads

/-- A name that is freed and then bound by a loop, in a step that ends with a
fault, and a variable that the code of the loop binds again. -/
theorem store_chronicled_loop :
    let s : Session := { settings := .ofTexts none none none, evaluator := evaluate 4 }
    let m : Machine := .bare
    let after := s.machineAfter
      [.run "1 (x) var 2 (y) var (x) free", .run "[3 4] (x) (x (y) var) for ınf"] m
    after.store.names = ["y", "x"] ∧
    ∃ ops, Store.Chronicled ops after.store ∧
      ∃ inner more,
        Comes (evaluate 4 "mem") after more (visitToken (evaluate inner) inner "mem") after ∧
        Store.Chronicled (ops ++ more) after.store := by
  intro s m after
  have hnames : after.store.names = ["y", "x"] := by decide +kernel
  have htokens : tokenize "mem" = ["mem"] := by decide +kernel
  have harrives : Arrives 4 "mem" after "mem" after := by
    apply Arrives.token
    rw [htokens]
    exact .here ..
  obtain ⟨-, -, ⟨ops, hperforms⟩, hchronicled, hleads, -⟩ :=
    store_chronicled (.ofTexts none none none) {} 4 (m := m) rfl
      [.run "1 (x) var 2 (y) var (x) free", .run "[3 4] (x) (x (y) var) for ınf"]
  obtain ⟨inner, more, hcomes⟩ := hleads _ _ _ harrives
  obtain ⟨hafter, hinside⟩ := hchronicled ops hperforms
  exact ⟨hnames, ops, hafter, inner, more, hcomes, hinside _ _ _ _ hcomes⟩

end Session

end ReversePolish
