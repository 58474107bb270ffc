/-
ReversePolish/Proofs/Recovery.lean

How an evaluation can end, and how it goes on after a refusal.

* A refusal is caught where its command was called (`endsOnly_recovering`), so
  no evaluation ends with one, at whatever depth it is nested
  (`evaluate_unrefused`), and none passes through a control command.
* The faults of an evaluation are misspelled numbers and failures of the host:
  a prompt that nobody answers, or a reading of the clock that is no value
  (`Routine.Assembled.explains`).

The main result is `evaluates_ending`: the ends of evaluations are those of
`Ending`, and after a refusal the program that had called the command goes on
with its next token.
-/
import ReversePolish.Proofs.Exit
import ReversePolish.Proofs.Safety

namespace ReversePolish

open Routine

/-! ### Recovering -/

/-- The machine after a refusal: the values given back are on the stack, and
the error stands in the log. -/
def Machine.recovered (m : Machine) (cause : Refusal) : Machine :=
  { m with
    stack := ⟨cause.restore.reverse ++ m.stack.topFirst⟩
    history := m.history.push (.recovered cause.message) }

theorem runOn_pushes (values : List Value) (m : Machine) :
    runOn (values.forM push) m =
      (.ok (), { m with stack := ⟨values.reverse ++ m.stack.topFirst⟩ }) := by
  induction values generalizing m with
  | nil => rfl
  | cons v values ih =>
    have hcons : (v :: values).forM push = (do push v; values.forM push) := rfl
    have hpush : runOn (push v) m = (.ok (), { m with stack := m.stack.push v }) := rfl
    rw [hcons, runOn_bind_of_ok hpush, ih, List.reverse_cons, List.append_assoc]
    rfl

theorem runOn_recover (cause : Refusal) (m : Machine) :
    runOn (recover cause) m = (.ok (), m.recovered cause) := by
  rw [recover, runOn_bind_of_ok (runOn_pushes cause.restore m)]
  rfl

/-! ### Refusals do not escape -/

/-- An interrupt other than a refusal. -/
def Interrupt.Unrefused (interrupt : Interrupt) : Prop := ∀ cause, interrupt ≠ .refusal cause

namespace Routine

variable {α β : Type} {allowed : Interrupt → Prop}

theorem EndsOnly.forM {turn : α → Routine Unit} {items : List α}
    (h : ∀ a ∈ items, EndsOnly allowed (turn a)) : EndsOnly allowed (items.forM turn) := by
  intro m m' interrupt hrun
  obtain ⟨a, start, hreaches, hturn⟩ := runOn_forM_eq_error.mp hrun
  exact h a hreaches.mem hturn

theorem EndsOnly.mapM {turn : α → Routine β} (h : ∀ a, EndsOnly allowed (turn a))
    (items : List α) : EndsOnly allowed (items.mapM turn) := by
  intro m m' interrupt hrun
  obtain ⟨a, start, -, hturn⟩ := runOn_mapM_eq_error.mp hrun
  exact h a hturn

/-- An early end that is left after recovering is one of the routine itself,
and no refusal. -/
theorem eq_error_of_recovering {r : Routine Unit} {m m' : Machine} {interrupt : Interrupt}
    (h : runOn (recovering r) m = (.error interrupt, m')) :
    runOn r m = (.error interrupt, m') ∧ interrupt.Unrefused := by
  rcases hfirst : runOn r m with ⟨outcome, m₁⟩
  by_cases hrefusal : ∃ cause, outcome = .error (.refusal cause)
  · obtain ⟨cause, rfl⟩ := hrefusal
    rw [runOn_recovering_of_refusal hfirst, runOn_recover] at h
    cases h
  · rw [runOn_recovering_of_ne hfirst hrefusal] at h
    obtain ⟨rfl, rfl⟩ := Prod.mk.inj h
    refine ⟨rfl, ?_⟩
    rintro cause rfl
    exact hrefusal ⟨cause, rfl⟩

theorem EndsOnly.recovering {r : Routine Unit} (h : EndsOnly allowed r) :
    EndsOnly allowed (recovering r) :=
  fun _ _ _ hrun => h (eq_error_of_recovering hrun).1

/-- Whatever a routine refuses, it is recovered from. -/
theorem endsOnly_recovering (r : Routine Unit) : EndsOnly Interrupt.Unrefused (recovering r) :=
  fun _ _ _ hrun => (eq_error_of_recovering hrun).2

end Routine

/-- A control command ends early in the code that it evaluates, or because
the bound was too small. -/
theorem Control.run_endsOnly {allowed : Interrupt → Prop} {evaluate : String → Routine Unit}
    (hexhausted : allowed .exhausted) (hevaluate : ∀ source, EndsOnly allowed (evaluate source))
    (ctl : Control) (bound : Nat) : EndsOnly allowed (ctl.run evaluate bound) := by
  have hvisit : ∀ (b : Binding) item, EndsOnly allowed (b.visit evaluate item) := fun b _ =>
    .bind (.of_ok _ fun _ => rfl) fun _ => hevaluate b.code
  have hloop : ∀ condition body bound,
      EndsOnly allowed (whileTrue evaluate condition body bound) := by
    intro condition body bound
    induction bound with
    | zero => exact endsOnly_throw hexhausted
    | succ bound ih =>
      refine (hevaluate condition).bind fun _ => endsOnly_popTruth.bind fun holds => ?_
      cases holds with
      | false => exact endsOnly_pure ()
      | true => exact (hevaluate body).bind fun _ => ih
  cases ctl with
  | evaluate => exact endsOnly_popText.bind hevaluate
  | choose =>
    refine endsOnly_popTruth.bind fun _ => endsOnly_popText.bind fun _ => ?_
    exact endsOnly_popText.bind fun _ => hevaluate _
  | loop => exact endsOnly_popText.bind fun _ => endsOnly_popText.bind fun _ => hloop _ _ bound
  | forEach => exact endsOnly_popBinding.bind fun b => .forM fun item _ => hvisit b item
  | mapEach =>
    refine endsOnly_popBinding.bind fun b => .bind (.mapM (fun item => ?_) b.items) fun _ => ?_
    · exact (hvisit b item).bind fun _ => endsOnly_pop
    · exact endsOnly_push _
  | filterEach =>
    refine endsOnly_popBinding.bind fun b => .bind (.mapM (fun item => ?_) b.items) fun _ => ?_
    · exact (hvisit b item).bind fun _ => endsOnly_popTruth.bind fun _ => endsOnly_pure _
    · exact endsOnly_push _

section Tokens

variable {evaluate : String → Routine Unit}

theorem execute_unrefused (bound : Nat) (name : String) :
    EndsOnly Interrupt.Unrefused (execute evaluate bound name) := by
  unfold execute
  cases Command.ofName? name with
  | none => exact endsOnly_push _
  | some command => exact (endsOnly_record _).bind fun _ => endsOnly_recovering _

theorem evaluateWord_unrefused (bound : Nat) (name : String) :
    EndsOnly Interrupt.Unrefused (evaluateWord evaluate bound name) := by
  refine .bind (.of_ok id fun _ => rfl) fun m => ?_
  cases m.store.lookup? name with
  | some v => exact endsOnly_push v
  | none =>
    dsimp only
    split
    · exact endsOnly_record _
    · exact execute_unrefused bound name

/-- Only in the body of a list literal a token depends on other
evaluations. -/
theorem evaluateToken_unrefused
    (hevaluate : ∀ source, EndsOnly Interrupt.Unrefused (evaluate source)) (bound : Nat)
    (token : String) : EndsOnly Interrupt.Unrefused (evaluateToken evaluate bound token) := by
  unfold evaluateToken
  cases Token.ofText token with
  | number n | truth b | text inside => exact endsOnly_push _
  | misspelled spelling => exact endsOnly_throw fun _ => nofun
  | list body => exact fun m m' interrupt hrun => hevaluate body (runOn_collect_eq_error.mp hrun)
  | word name => exact evaluateWord_unrefused bound name

end Tokens

/-- No evaluation ends with a refusal. -/
theorem evaluate_unrefused (bound : Nat) (source : String) :
    EndsOnly Interrupt.Unrefused (evaluate bound source) := by
  induction bound generalizing source with
  | zero => exact endsOnly_throw fun _ => nofun
  | succ bound ih =>
    refine .bind (.forM fun token _ => ?_) fun _ => .of_ok _ fun _ => rfl
    exact (evaluateToken_unrefused ih bound token).visitToken

/-! ### Faults -/

/-- What is known of an interrupt in a run that began with the given clock. -/
def Interrupt.Explained (clock : Clock) : Interrupt → Prop
  | fault (.misspelledNumber text) => Numeral.read text = .misspelled
  | fault .noReply => True
  | fault .integerTooLarge => ∃ d ∈ clock.readings, d.toValue = .error .integerTooLarge
  | fault _ => False
  | exit _ | refusal _ | exhausted => True

theorem Interrupt.Explained.mono {clock earlier : Clock} {interrupt : Interrupt}
    (h : interrupt.Explained clock) (hsubset : clock.readings ⊆ earlier.readings) :
    interrupt.Explained earlier := by
  rcases interrupt with status | cause | cause | _
  case fault =>
    cases cause with
    | integerTooLarge =>
      obtain ⟨d, hd, hvalue⟩ := h
      exact ⟨d, hsubset hd, hvalue⟩
    | misspelledNumber | unboundName | noReply | limitTooLarge | pathTooLong | notUtf8 => exact h
  all_goals trivial

namespace Routine

variable {α β : Type} {announced : String → Prop} {r : Routine α}

/-- The clock shows nothing new, and every early end is explained by what it
could show at the start. -/
def Explains (r : Routine α) : Prop :=
  ∀ ⦃m m' : Machine⦄ ⦃outcome : Except Interrupt α⦄, runOn r m = (outcome, m') →
    m'.host.clock.readings ⊆ m.host.clock.readings ∧
    ∀ interrupt, outcome = .error interrupt → interrupt.Explained m.host.clock

theorem Explains.of_run {outcome : Machine → Except Interrupt α} {next : Machine → Machine}
    (hrun : ∀ m, runOn r m = (outcome m, next m))
    (hclock : ∀ m, (next m).host.clock.readings ⊆ m.host.clock.readings)
    (houtcome : ∀ m interrupt, outcome m = .error interrupt →
      interrupt.Explained m.host.clock) : Explains r := by
  intro m m' o hm
  rw [hrun m] at hm
  obtain ⟨rfl, rfl⟩ := Prod.mk.inj hm
  exact ⟨hclock m, houtcome m⟩

/-- A routine that has a result and leaves the host alone. -/
theorem Explains.of_ok {result : Machine → α} {next : Machine → Machine}
    (hrun : ∀ m, runOn r m = (.ok (result m), next m)) (hnext : ∀ m, (next m).host = m.host) :
    Explains r := by
  refine .of_run hrun (fun m => ?_) fun _ _ => nofun
  rw [hnext m]
  exact List.Subset.refl _

theorem Explains.bind {next : α → Routine β} (hr : Explains r) (hnext : ∀ a, Explains (next a)) :
    Explains (r >>= next) := by
  intro m m' outcome hrun
  rcases hfirst : runOn r m with ⟨interrupt | a, m₁⟩
  · rw [runOn_bind_of_error hfirst] at hrun
    obtain ⟨rfl, rfl⟩ := Prod.mk.inj hrun
    obtain ⟨hclock, hexplained⟩ := hr hfirst
    refine ⟨hclock, fun interrupt heq => hexplained interrupt ?_⟩
    obtain rfl := Except.error.inj heq
    rfl
  · rw [runOn_bind_of_ok hfirst] at hrun
    obtain ⟨hclock, -⟩ := hr hfirst
    obtain ⟨hclock', hexplained⟩ := hnext a hrun
    refine ⟨List.Subset.trans hclock' hclock, fun interrupt heq => ?_⟩
    exact (hexplained interrupt heq).mono hclock

theorem Explains.recovering {r : Routine Unit} (hr : Explains r) : Explains (recovering r) := by
  intro m m' outcome hrun
  rcases hfirst : runOn r m with ⟨first, m₁⟩
  by_cases hrefusal : ∃ cause, first = .error (.refusal cause)
  · obtain ⟨cause, rfl⟩ := hrefusal
    rw [runOn_recovering_of_refusal hfirst, runOn_recover] at hrun
    obtain ⟨rfl, rfl⟩ := Prod.mk.inj hrun
    exact ⟨(hr hfirst).1, nofun⟩
  · rw [runOn_recovering_of_ne hfirst hrefusal] at hrun
    obtain ⟨rfl, rfl⟩ := Prod.mk.inj hrun
    exact hr hfirst

theorem explains_throw {interrupt : Interrupt} (h : interrupt.Permitted announced) :
    Explains (throw interrupt : Routine α) := by
  refine .of_run (runOn_throw interrupt) (fun m => List.Subset.refl _) fun m raised heq => ?_
  obtain rfl := Except.error.inj heq
  -- no fault of the host is raised outright
  rcases interrupt with status | cause | cause | _
  case fault =>
    cases cause with
    | misspelledNumber text => exact h
    | unboundName | noReply | integerTooLarge | limitTooLarge | pathTooLong | notUtf8 =>
      exact absurd h id
  all_goals trivial

theorem explains_pop : Explains pop := by
  intro m m' outcome hrun
  rw [runOn_pop_top] at hrun
  obtain ⟨rfl, rfl⟩ := Prod.mk.inj hrun
  exact ⟨List.Subset.refl _, nofun⟩

theorem explains_ask (message : String) : Explains (ask message) := by
  refine .of_run (runOn_ask message) (fun m => List.Subset.refl _) fun m interrupt heq => ?_
  cases hreplies : m.host.replies with
  | nil =>
    rw [hreplies] at heq
    obtain rfl := Except.error.inj heq
    trivial
  | cons reply later =>
    rw [hreplies] at heq
    cases heq

theorem explains_readClock : Explains readClock := by
  refine .of_run runOn_readClock (fun m => m.host.clock.readings_tick) fun m interrupt heq => ?_
  cases hvalue : m.host.clock.reading.toValue with
  | ok v =>
    rw [hvalue] at heq
    cases heq
  | error cause =>
    rw [hvalue] at heq
    obtain rfl := Except.error.inj heq
    obtain rfl := Datum.toValue_error hvalue
    exact ⟨_, m.host.clock.reading_mem, hvalue⟩

theorem explains_collect {evaluate : String → Routine Unit} {body : String} (token : String)
    (h : Explains (evaluate body)) : Explains (collect evaluate token body) := by
  intro m m' outcome hrun
  rcases hinner : runOn (evaluate body) (m.entering token) with ⟨interrupt | ⟨⟩, m₁⟩
  · rw [runOn_collect_of_error hinner] at hrun
    obtain ⟨rfl, rfl⟩ := Prod.mk.inj hrun
    have hbody := h hinner
    exact hbody
  · rw [runOn_collect_of_ok hinner] at hrun
    obtain ⟨rfl, rfl⟩ := Prod.mk.inj hrun
    exact ⟨(h hinner).1, nofun⟩

theorem Assembled.explains (h : Assembled announced r) : Explains r := by
  -- only a prompt and the clock can fail on account of the host
  induction h with
  | pure a => exact .of_ok (runOn_pure a) fun _ => rfl
  | bind _ _ ihr ihnext => exact ihr.bind ihnext
  | throw interrupt hpermitted => exact explains_throw hpermitted
  | recovering _ _ ihr _ => exact ihr.recovering
  | record e => exact .of_ok (fun _ => rfl) fun _ => rfl
  | push v => exact .of_ok (fun _ => rfl) fun _ => rfl
  | pop => exact explains_pop
  | depth => exact .of_ok (fun _ => rfl) fun _ => rfl
  | define name v => exact .of_ok (fun _ => rfl) fun _ => rfl
  | free name => exact .of_ok (fun _ => rfl) fun _ => rfl
  | dumpStore => exact .of_ok (fun _ => rfl) fun _ => rfl
  | names => exact .of_ok (fun _ => rfl) fun _ => rfl
  | lookup name _ _ ih =>
    refine .bind (.of_ok runOn_get fun _ => rfl) fun m => ?_
    cases m.store.lookup? name with
    | some v => exact .of_ok (fun _ => rfl) fun _ => rfl
    | none => exact ih
  | ask message => exact explains_ask message
  | readClock => exact explains_readClock
  | collect token _ ih => exact explains_collect token ih
  | trace token _ ih => exact .bind (.of_ok (fun _ => rfl) fun _ => rfl) fun _ => ih
  | settle => exact .of_ok (fun _ => rfl) fun _ => rfl

end Routine

/-- A misspelled number has one of the two letters in it that are only taken
for an `i`. -/
theorem Numeral.exists_of_misspelled {s : String} (h : read s = .misspelled) :
    ∃ c ∈ s.toList, c = 'İ' ∨ c = 'ı' := by
  by_contra hnone
  refine read_ne_misspelled (fun c hc => ⟨?_, ?_⟩) h
  · rintro rfl
    exact hnone ⟨_, hc, Or.inl rfl⟩
  · rintro rfl
    exact hnone ⟨_, hc, Or.inr rfl⟩

/-! ### The ends of evaluations -/

/-- The ways in which an evaluation from `m` to `m'` can end, each with an
outcome of its own. -/
inductive Ending (m m' : Machine) : Except Interrupt Unit → Prop where
  | normal : Ending m m' (.ok ())
  | exit {status : Int} : -0x80000000 ≤ status → status ≤ 0x7fffffff →
      Ending m m' (.error (.exit status))
  | misspelled {text : String} : (∃ c ∈ text.toList, c = 'İ' ∨ c = 'ı') →
      Ending m m' (.error (.fault (.misspelledNumber text)))
  /-- There was one prompt more than the host had answers. -/
  | noReply : (m.added m').prompts.length = m.host.replies.length + 1 →
      Ending m m' (.error (.fault .noReply))
  /-- The clock of the host shows an integer that is too large. -/
  | clock {d : Datum} : d ∈ m.host.clock.readings → d.toValue = .error .integerTooLarge →
      Ending m m' (.error (.fault .integerTooLarge))

/-- Only the command `exit` exits, and its status has 32 bits. -/
theorem evaluate_exit_range {bound : Nat} {source : String} {m m' : Machine} {status : Int}
    (h : runOn (evaluate bound source) m = (.error (.exit status), m')) :
    -0x80000000 ≤ status ∧ status ≤ 0x7fffffff := by
  have hfinal : (Interrupt.exit status).Final := trivial
  obtain ⟨token, site, -, hraises⟩ := (evaluate_eq_error hfinal).mp h
  exact (raises_exit_iff.mp hraises).2.range

/-- A prompt without an answer is one more than there were answers. -/
theorem evaluate_noReply_prompts {bound : Nat} {source : String} {m m' : Machine}
    (h : runOn (evaluate bound source) m = (.error (.fault .noReply), m')) :
    (m.added m').prompts.length = m.host.replies.length + 1 := by
  have hassembled : Assembled (fun _ => True) (evaluate bound source) :=
    evaluate_assembled bound source
  have hgrown := hassembled.appends.history_eq h
  have hcount := (hassembled.accounts h).1 rfl
  rw [hgrown, History.prompts_append, List.length_append, Machine.questions] at hcount
  omega

theorem Evaluates.ending {source : String} {m m' : Machine} {outcome : Except Interrupt Unit}
    (h : Evaluates source m outcome m') : Ending m m' outcome := by
  obtain ⟨hended, bound, hrun⟩ := h
  rcases outcome with (status | cause | cause | _) | ⟨⟩
  · obtain ⟨hlow, hhigh⟩ := evaluate_exit_range hrun
    exact .exit hlow hhigh
  · have hassembled : Assembled (fun _ => True) (evaluate bound source) :=
      evaluate_assembled bound source
    have hexplained := (hassembled.explains hrun).2 _ rfl
    cases cause with
    | misspelledNumber text => exact .misspelled (Numeral.exists_of_misspelled hexplained)
    | noReply => exact .noReply (evaluate_noReply_prompts hrun)
    | integerTooLarge =>
      obtain ⟨d, hd, hvalue⟩ := hexplained
      exact .clock hd hvalue
    | unboundName | limitTooLarge | pathTooLong | notUtf8 => exact absurd hexplained id
  · exact absurd rfl (evaluate_unrefused bound source hrun cause)
  · exact absurd rfl hended
  · exact .normal

/-! ### Going on after a refusal -/

/-- The machine `m₂` from which a run goes on, after a command has refused its
operands and left the machine `m₁`. -/
structure GoesOn (m₁ : Machine) (cause : Refusal) (m₂ : Machine) : Prop where
  /-- The values given back are on the stack, in order. -/
  stack : m₂.stack.toList = m₁.stack.toList ++ cause.restore
  store : m₂.store = m₁.store
  host : m₂.host = m₁.host
  /-- There is one more line in the log. -/
  log : m₂.history.log = m₁.history.log ++ ("Error: " ++ cause.message ++ "\n")
  output : m₂.history.output = m₁.history.output
  prompts : m₂.history.prompts = m₁.history.prompts
  sleeps : m₂.history.sleeps = m₁.history.sleeps

theorem Machine.goesOn_recovered (m : Machine) (cause : Refusal) :
    GoesOn m cause (m.recovered cause) where
  stack := by simp [recovered, Stack.toList]
  store := rfl
  host := rfl
  log := History.log_push ..
  output := by simp [recovered, Event.output]
  prompts := by simp [recovered, Event.prompt?]
  sleeps := by simp [recovered, Event.sleep?]

/-- An evaluation, with one of the tokens set apart. -/
theorem evaluate_split {bound : Nat} {source token : String} {before rest : List String}
    (htokens : tokenize source = before ++ token :: rest) :
    evaluate (bound + 1) source = (do
      before.forM (visitToken (evaluate bound) bound)
      visitToken (evaluate bound) bound token
      rest.forM (visitToken (evaluate bound) bound)
      settle) := by
  have hforM : (before ++ token :: rest).forM (visitToken (evaluate bound) bound) = (do
      before.forM (visitToken (evaluate bound) bound)
      visitToken (evaluate bound) bound token
      rest.forM (visitToken (evaluate bound) bound)) := List.forM_append
  rw [evaluate, htokens, hforM]
  simp only [bind_assoc]

/-- The tokens after a command that refuses are evaluated as if it had
not. -/
theorem evaluate_after_refusal {bound : Nat} {source : String} {m site m₁ : Machine}
    {before rest : List String} {c : Command} {cause : Refusal}
    (htokens : tokenize source = before ++ c.name :: rest)
    (hbefore : runOn (before.forM (visitToken (evaluate bound) bound)) m = (.ok (), site))
    (hunbound : site.store.lookup? c.name = none)
    (hrefuses : runOn (c.run (evaluate bound) bound) ((site.tracing c.name).noting c.name) =
      (.error (.refusal cause), m₁)) :
    runOn (evaluate (bound + 1) source) m =
      runOn (do rest.forM (visitToken (evaluate bound) bound); settle) (m₁.recovered cause) := by
  have hcommand : runOn (visitToken (evaluate bound) bound c.name) site =
      (.ok (), m₁.recovered cause) := by
    have htraced : (site.tracing c.name).store.lookup? c.name = none := hunbound
    rw [runOn_visitToken, runOn_evaluateToken_name htraced, runOn_recovering_of_refusal hrefuses,
      runOn_recover]
  rw [evaluate_split htokens, runOn_bind_of_ok hbefore, runOn_bind_of_ok hcommand]

/-- **The ends of evaluations.**  An evaluation that comes to an end ends
normally, with an exit whose status has 32 bits, with a misspelled number that
has an `İ` or `ı` in it, or by a failure of the host.  None ends with a
refusal, and since the code of list literals and control commands is evaluated
in the same way, none does so at any depth.  Where a command refuses, it is an
operator or an effect that was called by this very source: its values are
given back, one line goes to the log, and the source goes on with the next
token. -/
theorem evaluates_ending (source : String) (m : Machine) :
    (∀ outcome m', Evaluates source m outcome m' → Ending m m' outcome) ∧
    (∀ bound cause, (runOn (evaluate bound source) m).1 ≠ .error (.refusal cause)) ∧
    ∀ (bound : Nat) (before rest : List String) (c : Command) (site m₁ : Machine)
      (cause : Refusal),
      tokenize source = before ++ c.name :: rest →
      runOn (before.forM (visitToken (evaluate bound) bound)) m = (.ok (), site) →
      site.store.lookup? c.name = none →
      runOn (c.run (evaluate bound) bound) ((site.tracing c.name).noting c.name) =
        (.error (.refusal cause), m₁) →
      (∀ ctl, c ≠ .control ctl) ∧
      ∃ m₂, GoesOn m₁ cause m₂ ∧ runOn (evaluate (bound + 1) source) m =
        runOn (do rest.forM (visitToken (evaluate bound) bound); settle) m₂ := by
  refine ⟨fun outcome m' h => h.ending, fun bound cause hrefused => ?_, ?_⟩
  · have hrun : runOn (evaluate bound source) m =
        (.error (.refusal cause), (runOn (evaluate bound source) m).2) := Prod.ext hrefused rfl
    exact evaluate_unrefused bound source hrun cause rfl
  · intro bound before rest c site m₁ cause htokens hbefore hunbound hrefuses
    refine ⟨?_, m₁.recovered cause, m₁.goesOn_recovered cause,
      evaluate_after_refusal htokens hbefore hunbound hrefuses⟩
    -- what is refused inside nested code has been recovered from there
    rintro ctl rfl
    have hunrefused := Control.run_endsOnly (fun _ => nofun) (evaluate_unrefused bound) ctl bound
    exact hunrefused hrefuses cause rfl

/-- The routine has refused. -/
def refused : Except Interrupt Unit → Bool
  | .error (.refusal _) => true
  | _ => false

theorem exists_refusal {r : Routine Unit} {m : Machine} (h : refused (runOn r m).1 = true) :
    ∃ cause, runOn r m = (.error (.refusal cause), (runOn r m).2) := by
  generalize runOn r m = run at h ⊢
  rcases run with ⟨(_ | _ | cause | _) | _, m'⟩
  case error.refusal => exact ⟨cause, rfl⟩
  all_goals cases h

theorem runOn_eq_ok {r : Routine Unit} {m : Machine} (h : (runOn r m).1.toBool = true) :
    runOn r m = (.ok (), (runOn r m).2) := by
  generalize runOn r m = run at h ⊢
  rcases run with ⟨_ | ⟨⟩, m'⟩
  · cases h
  · rfl

/-- An index out of range, and later a misspelled number. -/
theorem evaluates_ending_get :
    let source := "[7] 1 get (ınf) add"
    let m : Machine := .bare
    let run := runOn (evaluate 3 source) m
    let site := (runOn (["[7]", "1"].forM (visitToken (evaluate 2) 2)) m).2
    Evaluates source m run.1 run.2 ∧ Ending m run.2 run.1 ∧
      ∃ cause m₁ m₂,
        runOn Operator.get.run ((site.tracing "get").noting "get") =
          (.error (.refusal cause), m₁) ∧
        GoesOn m₁ cause m₂ ∧
        run = runOn (do ["(ınf)", "add"].forM (visitToken (evaluate 2) 2); settle) m₂ := by
  intro source m run site
  have hends : Evaluates source m run.1 run.2 := evaluates_of_ended (by decide +kernel)
  have htokens : tokenize source = ["[7]", "1"] ++ "get" :: ["(ınf)", "add"] := by decide +kernel
  have hbefore : runOn (["[7]", "1"].forM (visitToken (evaluate 2) 2)) m = (.ok (), site) :=
    runOn_eq_ok (by decide +kernel)
  have hunbound : (site.store.lookup? "get").isNone = true := by decide +kernel
  obtain ⟨cause, hrefuses⟩ := exists_refusal (r := Operator.get.run)
    (m := (site.tracing "get").noting "get") (by decide +kernel)
  have hending := evaluates_ending source m
  obtain ⟨-, m₂, hgoesOn, hrun⟩ := hending.2.2 2 ["[7]", "1"] ["(ınf)", "add"] (.operator .get)
    site _ cause htokens hbefore (Option.isNone_iff_eq_none.mp hunbound) hrefuses
  exact ⟨hends, hending.1 _ _ hends, cause, _, m₂, hrefuses, hgoesOn, hrun⟩

end ReversePolish
