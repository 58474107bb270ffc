/-
ReversePolish/Proofs/Exit.lean

The end of a run by `exit`.  Only this command raises an exit, and it does so
after it has taken its operand.  So a run ends with an exit exactly if it
arrives at an `exit` that is not bound to a variable, on a stack whose top
value is a number, at whatever depth of nested code.  Nothing catches the exit
and nothing happens after it (`evaluates_exit_iff`): of the machine on which
the command was met, only the top value is gone, and the log goes on with the
line of this token and the report of a missing operand.
-/
import ReversePolish.Proofs.Arrival
import ReversePolish.Proofs.Operands

namespace ReversePolish

open Routine

/-! ### The operand -/

namespace Stack

/-- The top value, or the blank value if the stack is empty. -/
def top (s : Stack) : Value := s.topFirst.headD .blank

/-- The stack without its top value. -/
def rest (s : Stack) : Stack := ⟨s.topFirst.tail⟩

/-- The report of a pop, which there is if the stack is empty. -/
def popReport (s : Stack) : History := if s.topFirst.isEmpty then #[.underflow] else #[]

end Stack

theorem runOn_pop_top (m : Machine) :
    runOn pop m = (.ok m.stack.top,
      { m with stack := m.stack.rest, history := m.history ++ m.stack.popReport }) := by
  rcases m with ⟨⟨_ | ⟨v, rest⟩⟩, store, host, history⟩
  · rfl
  · have hsilent : history ++ Stack.popReport ⟨v :: rest⟩ = history := Array.append_empty
    rw [runOn_pop, hsilent]
    rfl

/-- A status has 32 bits. -/
theorem Number.toStatus_range (n : Number) :
    -0x80000000 ≤ n.toStatus ∧ n.toStatus ≤ 0x7fffffff := by
  cases n with
  | nan => decide
  | signed negative m =>
    cases negative with
    | true =>
      simp only [toStatus]
      omega
    | false =>
      simp only [toStatus]
      omega

/-! ### Who exits -/

/-- An interrupt other than an exit. -/
def Interrupt.Exitless (interrupt : Interrupt) : Prop := ∀ status, interrupt ≠ .exit status

/-! A command that is not a control command ends early with a fault, a refusal
or an exit, and only one of them exits. -/

section Early

variable {allowed : Interrupt → Prop} (hfault : ∀ cause, allowed (.fault cause))
  (hrefusal : ∀ cause, allowed (.refusal cause))

include hfault

namespace Routine

variable {rest : Routine Unit → Prop} {k : Nat} {r : Routine Unit}

theorem endsOnly_toNumber (v : Value) : EndsOnly allowed (ofExcept v.toNumber) := by
  cases v.toNumber with
  | ok n => exact endsOnly_pure n
  | error cause => exact endsOnly_throw (hfault cause)

theorem endsOnly_popNumber : EndsOnly allowed popNumber :=
  endsOnly_pop.bind (endsOnly_toNumber hfault)

/-- After its operands a routine ends as the rest of it does. -/
theorem Takes.endsOnly (h : Takes rest k r) (hrest : ∀ r, rest r → EndsOnly allowed r) :
    EndsOnly allowed r := by
  induction h with
  | done hr => exact hrest _ hr
  | operand _ ih => exact endsOnly_pop.bind ih
  | misspelled k text => exact endsOnly_throw (hfault _)

theorem endsOnly_ask (message : String) : EndsOnly allowed (ask message) := by
  intro m m' interrupt hrun
  rw [runOn_ask] at hrun
  cases hreplies : m.host.replies with
  | nil =>
    rw [hreplies] at hrun
    cases hrun
    exact hfault _
  | cons reply later =>
    rw [hreplies] at hrun
    cases hrun

theorem endsOnly_readClock : EndsOnly allowed readClock := by
  intro m m' interrupt hrun
  rw [runOn_readClock] at hrun
  cases hvalue : m.host.clock.reading.toValue with
  | ok v =>
    rw [hvalue] at hrun
    cases hrun
  | error cause =>
    rw [hvalue] at hrun
    cases hrun
    exact hfault cause

end Routine

include hrefusal

theorem Operator.run_endsOnly (op : Operator) : EndsOnly allowed op.run := by
  refine op.takes.endsOnly hfault fun r hr => ?_
  cases hr with
  | pushes values => exact endsOnly_pushes values
  | refuses cause => exact endsOnly_throw (hrefusal cause)

namespace Effect

theorem runSleep_endsOnly : EndsOnly allowed runSleep := by
  apply (endsOnly_popNumber hfault).bind
  intro seconds
  dsimp only
  split
  · exact .bind (endsOnly_throw (hrefusal _)) fun _ => endsOnly_record _
  · exact endsOnly_record _

/-- `exit` is the only effect that raises an exit. -/
theorem run_endsOnly {eff : Effect} (hexit : eff = .exit → ∀ status, allowed (.exit status)) :
    EndsOnly allowed eff.run := by
  cases eff with
  | print => exact endsOnly_popText.bind fun _ => endsOnly_record _
  | input =>
    refine endsOnly_popText.bind fun message => ?_
    exact (endsOnly_ask hfault message).bind fun _ => endsOnly_push _
  | exit =>
    refine (endsOnly_popNumber hfault).bind fun _ => (endsOnly_record _).bind fun _ => ?_
    exact endsOnly_throw (hexit rfl _)
  | depth => exact .of_ok _ fun _ => rfl
  | define =>
    refine endsOnly_popText.bind fun name => endsOnly_pop.bind fun v => ?_
    exact .bind (.of_ok _ fun _ => rfl) fun _ => .of_ok _ fun _ => rfl
  | names => exact .of_ok _ fun _ => rfl
  | free =>
    refine endsOnly_popText.bind fun name => ?_
    exact .bind (.of_ok _ fun _ => rfl) fun _ => .of_ok _ fun _ => rfl
  | now => exact (endsOnly_readClock hfault).bind fun _ => endsOnly_push _
  | sleep => exact runSleep_endsOnly hfault hrefusal

end Effect

end Early

theorem Operator.run_exitless (op : Operator) : EndsOnly Interrupt.Exitless op.run :=
  op.run_endsOnly (fun _ => nofun) fun _ => nofun

namespace Effect

theorem run_exitless {eff : Effect} (h : eff ≠ .exit) : EndsOnly Interrupt.Exitless eff.run :=
  run_endsOnly (fun _ => nofun) (fun _ => nofun) fun heff => absurd heff h

/-- The command exits if the top value is a number, and a misspelled one is
the only other way in which it ends. -/
theorem runExit_eq_exit {m m' : Machine} {status : Int} :
    runOn runExit m = (.error (.exit status), m') ↔
      (∃ n, m.stack.top.toNumber = .ok n ∧ status = n.toStatus) ∧
        m' = { m with
          stack := m.stack.rest
          history := (m.history ++ m.stack.popReport).push (.exitRequested status) } := by
  have hexit : runExit = pop >>= fun v => ofExcept v.toNumber >>= fun n =>
      record (.exitRequested n.toStatus) >>= fun _ => throw (.exit n.toStatus) := by
    simp only [runExit, popNumber, bind_assoc]
  rw [hexit, runOn_bind_of_ok (runOn_pop_top m)]
  cases hvalue : m.stack.top.toNumber with
  | error cause =>
    constructor
    · intro h
      cases h
    · rintro ⟨⟨n, hn, -⟩, -⟩
      cases hn
  | ok n =>
    constructor
    · intro h
      cases h
      exact ⟨⟨n, rfl, rfl⟩, rfl⟩
    · rintro ⟨⟨n', hn, rfl⟩, rfl⟩
      cases hn
      rfl

end Effect

/-! ### Exits -/

/-- What the command adds to the history, from its token on. -/
def Stack.exitEvents (s : Stack) (status : Int) : History :=
  #[.traced s "exit", .commandEntered "exit"] ++ s.popReport ++ #[.exitRequested status]

namespace Stack

variable (s : Stack) (status : Int)

theorem popReport_eq : s.popReport = #[] ∨ s.popReport = #[.underflow] := by
  rw [popReport]
  split
  · exact Or.inr rfl
  · exact Or.inl rfl

/-- The log gets the line of the token, and an error only if the operand is
missing. -/
theorem log_exitEvents :
    (s.exitEvents status).log = s.display ++ " <- exit\n" ++
      if s.topFirst.isEmpty then "Error: Not enough values on the stack, using the default value\n"
      else "" := by
  have hreport : s.popReport.log = if s.topFirst.isEmpty then
      "Error: Not enough values on the stack, using the default value\n" else "" := by
    rw [popReport]
    split
    · decide
    · rfl
  have htoken : History.log #[.traced s "exit", .commandEntered "exit"] =
      s.display ++ " <- exit\n" := by
    simp [History.log, History.textOf, Event.log, String.append_assoc]
  rw [exitEvents, History.log_append, History.log_append, hreport, htoken]
  exact String.append_empty

theorem output_exitEvents : (s.exitEvents status).output = "" := by
  rcases s.popReport_eq with hreport | hreport <;> rw [exitEvents, hreport] <;> rfl

theorem prompts_exitEvents : (s.exitEvents status).prompts = [] := by
  rcases s.popReport_eq with hreport | hreport <;> rw [exitEvents, hreport] <;> rfl

theorem sleeps_exitEvents : (s.exitEvents status).sleeps = [] := by
  rcases s.popReport_eq with hreport | hreport <;> rw [exitEvents, hreport] <;> rfl

end Stack

/-- The machine `site`, on which a token `exit` was met, and the machine `m'`
that is left when the run has ended there with a status. -/
structure Exits (site : Machine) (status : Int) (m' : Machine) : Prop where
  unbound : site.store.lookup? "exit" = none
  operand : ∃ n, site.stack.top.toNumber = .ok n ∧ status = n.toStatus
  range : -0x80000000 ≤ status ∧ status ≤ 0x7fffffff
  /-- The operand is gone, and nothing else has changed. -/
  stack : m'.stack = site.stack.rest
  store : m'.store = site.store
  host : m'.host = site.host
  history : m'.history = site.history ++ site.stack.exitEvents status
  /-- The line of the token comes last, or before the report of a missing
  operand. -/
  log : m'.history.log = site.history.log ++ (site.stack.display ++ " <- exit\n" ++
    if site.stack.topFirst.isEmpty then
      "Error: Not enough values on the stack, using the default value\n" else "")
  output : m'.history.output = site.history.output
  prompts : m'.history.prompts = site.history.prompts
  sleeps : m'.history.sleeps = site.history.sleeps

/-- The machine that `exit` leaves. -/
def Machine.exited (site : Machine) (status : Int) : Machine :=
  { site with
    stack := site.stack.rest
    history := site.history ++ site.stack.exitEvents status }

theorem exits_iff {site m' : Machine} {status : Int} :
    Exits site status m' ↔ site.store.lookup? "exit" = none ∧
      (∃ n, site.stack.top.toNumber = .ok n ∧ status = n.toStatus) ∧ m' = site.exited status := by
  constructor
  · intro h
    refine ⟨h.unbound, h.operand, ?_⟩
    rcases m' with ⟨stack, store, host, history⟩
    obtain ⟨rfl, rfl, rfl, rfl⟩ : stack = _ ∧ store = _ ∧ host = _ ∧ history = _ :=
      ⟨h.stack, h.store, h.host, h.history⟩
    rfl
  · rintro ⟨hunbound, hoperand, rfl⟩
    have hrange : -0x80000000 ≤ status ∧ status ≤ 0x7fffffff := by
      obtain ⟨n, -, rfl⟩ := hoperand
      exact n.toStatus_range
    refine ⟨hunbound, hoperand, hrange, rfl, rfl, rfl, rfl, ?_, ?_, ?_, ?_⟩
    · rw [Machine.exited, History.log_append, Stack.log_exitEvents]
    · rw [Machine.exited, History.output_append, Stack.output_exitEvents]
      exact String.append_empty
    · rw [Machine.exited, History.prompts_append, Stack.prompts_exitEvents, List.append_nil]
    · rw [Machine.exited, History.sleeps_append, Stack.sleeps_exitEvents, List.append_nil]

/-- The command on the machine on which its token was met. -/
theorem runExit_tracing_eq_exit {site m' : Machine} {status : Int} :
    runOn Effect.runExit ((site.tracing "exit").noting "exit") = (.error (.exit status), m') ↔
      (∃ n, site.stack.top.toNumber = .ok n ∧ status = n.toStatus) ∧ m' = site.exited status := by
  have hhistory :
      (((site.history.push (.traced site.stack "exit")).push (.commandEntered "exit") ++
        site.stack.popReport).push (.exitRequested status) : History) =
      site.history ++ site.stack.exitEvents status := by
    apply Array.toList_inj.mp
    simp [Stack.exitEvents]
  have hexited : site.exited status = _ :=
    congrArg (fun h => { site with stack := site.stack.rest, history := h }) hhistory.symm
  rw [hexited]
  exact Effect.runExit_eq_exit

/-- The only token that exits is `exit`, as long as no variable has this
name. -/
theorem raises_exit_iff {token : String} {site m' : Machine} {status : Int} :
    Raises token (site.tracing token) (.exit status) m' ↔
      token = "exit" ∧ Exits site status m' := by
  rw [exits_iff]
  constructor
  · intro h
    cases h with
    | @operator op _ _ _ _ hrun => exact absurd rfl (op.run_exitless hrun status)
    | @effect eff _ _ _ hunbound hrun =>
      by_cases heff : eff = .exit
      · subst heff
        exact ⟨rfl, hunbound, runExit_tracing_eq_exit.mp hrun⟩
      · exact absurd rfl (Effect.run_exitless heff hrun status)
  · rintro ⟨rfl, hunbound, hexited⟩
    have heffect : Raises Effect.exit.name (site.tracing "exit") (.exit status) m' :=
      .effect hunbound (runExit_tracing_eq_exit.mpr hexited)
    exact heffect

/-- **An exit cannot be caught, and nothing happens after it.**  An evaluation
ends with an exit exactly if it arrives at the command `exit`, at whatever
depth of list literals and control commands; it then leaves the machine of
that moment without the top value, and adds no more than the line of this
token and the report of a missing operand to the log. -/
theorem evaluates_exit_iff {source : String} {m m' : Machine} {status : Int} :
    Evaluates source m (.error (.exit status)) m' ↔
      ∃ bound site, Arrives bound source m "exit" site ∧ Exits site status m' := by
  constructor
  · rintro ⟨-, bound, hrun⟩
    have hfinal : (Interrupt.exit status).Final := trivial
    obtain ⟨token, site, harrives, hraises⟩ := (evaluate_eq_error hfinal).mp hrun
    obtain ⟨rfl, hexits⟩ := raises_exit_iff.mp hraises
    exact ⟨bound, site, harrives, hexits⟩
  · rintro ⟨bound, site, harrives, hexits⟩
    have hfinal : (Interrupt.exit status).Final := trivial
    refine ⟨nofun, bound, (evaluate_eq_error hfinal).mpr ?_⟩
    exact ⟨"exit", site, harrives, raises_exit_iff.mpr ⟨rfl, hexits⟩⟩

/-- The status of an exit. -/
def exitStatus? : Except Interrupt Unit → Option Int
  | .error (.exit status) => some status
  | _ => none

theorem eq_exit_of_exitStatus? {outcome : Except Interrupt Unit} {status : Int}
    (h : exitStatus? outcome = some status) : outcome = .error (.exit status) := by
  rcases outcome with (_ | _ | _ | _) | _
  · cases h
    rfl
  all_goals cases h

/-- An exit in code in a branch in a list literal, with tokens to come at each
of the four levels. -/
theorem evaluates_exit_iff_nested :
    let source := "[1 ((7 exit 8) eval 99) () true if 2] 100"
    let m : Machine := .bare
    ∃ bound site m', Arrives bound source m "exit" site ∧ Exits site 7 m' := by
  intro source m
  have hexit : (runOn (evaluate 4 source) m).1 = .error (.exit 7) :=
    eq_exit_of_exitStatus? (by decide +kernel)
  have hends : ended (runOn (evaluate 4 source) m).1 = true := by
    rw [hexit]
    rfl
  have hevaluates := evaluates_of_ended hends
  rw [hexit] at hevaluates
  obtain ⟨bound, site, harrives, hexits⟩ := evaluates_exit_iff.mp hevaluates
  exact ⟨bound, site, _, harrives, hexits⟩

end ReversePolish
