/-
ReversePolish/Proofs/Underflow.lean

Too few values on the stack.  A command that finds fewer values than it takes
does what it would do if the stack were filled up from below with blanks.  The
only difference is in the log, where each missing value is reported before
anything else (`execute_padded`).

The reason is that a command takes all its operands before it does anything
(`Routine.Takes`).  Once they are taken both stacks are empty, and from there
on the two runs differ in their histories alone, which no routine reads.  A
misspelled number among the operands is the exception: it ends the run while
there may still be blanks on one of the stacks.
-/
import ReversePolish.Proofs.Frame
import ReversePolish.Proofs.Operands

namespace ReversePolish

/-- A machine whose stack is filled up with blanks from below, to a given
height. -/
def Machine.padded (m : Machine) (height : Nat) : Machine :=
  m.above (List.replicate (height - m.stack.size) .blank)

/-- An outcome other than the fault of a misspelled number. -/
def Spelled {α : Type} (outcome : Except Interrupt α) : Prop :=
  ∀ text, outcome ≠ .error (.fault (.misspelledNumber text))

/-- One event more, at either end of a repetition. -/
theorem History.push_append_replicate (h : History) (e : Event) (n : Nat) :
    h.push e ++ Array.replicate n e = h ++ Array.replicate (n + 1) e := by
  apply Array.toList_inj.mp
  simp [List.replicate_succ]

namespace Machine

variable {m : Machine}

/-- What has been added begins with the event that was pushed. -/
theorem added_of_push {before after : Machine} {e : Event} {added : History}
    (h : after.history = before.history.push e ++ added) : before.added after = #[e] ++ added :=
  added_eq (by rw [h, Array.push_eq_append, Array.append_assoc])

theorem padded_of_empty (hempty : m.stack = ⟨[]⟩) (height : Nat) :
    m.padded height = { m with stack := ⟨List.replicate height .blank⟩ } := by
  simp [padded, above, hempty, Stack.size, Stack.toList, Stack.ofList]

theorem padded_zero (hempty : m.stack = ⟨[]⟩) : m.padded 0 = m := by
  rw [padded_of_empty hempty, List.replicate_zero, ← hempty]

/-- Below the top value there is one value fewer to fill up to. -/
theorem padded_cons {v : Value} {rest : List Value} (hstack : m.stack = ⟨v :: rest⟩)
    (height : Nat) :
    m.padded (height + 1) = { m with
      stack := (padded { m with stack := ⟨rest⟩ } height).stack.push v } := by
  simp [padded, above, hstack, Stack.size, Stack.toList, Stack.ofList, Stack.push]

end Machine

namespace Routine

variable {allowed : Event → Prop} {k : Nat} {r : Routine Unit}

/-! ### Routines that take operands -/

/-- From a stack with at most `k` values the routine runs as from the padded
one, but reports the missing values first. -/
def Pads (allowed : Event → Prop) (k : Nat) (r : Routine Unit) : Prop :=
  ∀ m : Machine, m.stack.size ≤ k → Spelled (runOn r m).1 →
    ∃ (outcome : Except Interrupt Unit) (m' : Machine) (added : History),
      runOn r m = (outcome, m'.withHistory
        (m.history ++ Array.replicate (k - m.stack.size) .underflow ++ added)) ∧
      (∀ h, runOn r ((m.padded k).withHistory h) = (outcome, m'.withHistory (h ++ added))) ∧
      ∀ e ∈ added, allowed e

/-- Nothing is missing where nothing is taken. -/
theorem AppendsOnly.pads (h : AppendsOnly allowed r) : Pads allowed 0 r := by
  intro m hsize _
  obtain ⟨outcome, m', added, hrun, hadded⟩ := h m
  have hempty : m.stack = ⟨[]⟩ :=
    congrArg Stack.mk (List.length_eq_zero_iff.mp (Nat.le_zero.mp hsize))
  have hm := hrun m.history
  rw [Machine.withHistory_self] at hm
  refine ⟨outcome, m', added, ?_, ?_, hadded⟩
  · rw [hm, Nat.zero_sub, Array.replicate_zero, Array.append_empty]
  · rw [Machine.padded_zero hempty]
    exact hrun

/-- One operand more. -/
theorem Pads.operand {next : Value → Routine Unit} (h : ∀ v, Pads allowed k (next v)) :
    Pads allowed (k + 1) (pop >>= next) := by
  intro m hsize hspelled
  rcases hstack : m.stack with ⟨_ | ⟨v, rest⟩⟩
  · -- the value is missing here, and a blank there
    have hpop : runOn pop m = (.ok .blank, m.withHistory (m.history.push .underflow)) := by
      have hnone : m.stack.pop? = none := by rw [hstack]; rfl
      rw [runOn_pop, hnone]
      rfl
    rw [runOn_bind_of_ok hpop] at hspelled ⊢
    have hempty : (m.withHistory (m.history.push .underflow)).stack = ⟨[]⟩ := hstack
    have hlow : (m.withHistory (m.history.push .underflow)).stack.size ≤ k := by
      rw [hempty]
      exact Nat.zero_le k
    obtain ⟨outcome, m', added, hrun, hpadded, hadded⟩ := h .blank _ hlow hspelled
    refine ⟨outcome, m', added, ?_, fun history => ?_, hadded⟩
    · have hnone : (⟨[]⟩ : Stack).size = 0 := rfl
      rw [hrun, hempty, hnone, Nat.sub_zero, Nat.sub_zero, Machine.history_withHistory,
        History.push_append_replicate]
    · rw [← hpadded history, Machine.padded_of_empty hstack, Machine.padded_of_empty hempty]
      rfl
  · have hpop : runOn pop m = (.ok v, { m with stack := ⟨rest⟩ }) := by
      have hsome : m.stack.pop? = some (v, ⟨rest⟩) := by rw [hstack]; rfl
      rw [runOn_pop, hsome]
    rw [runOn_bind_of_ok hpop] at hspelled ⊢
    have hlow : ({ m with stack := ⟨rest⟩ } : Machine).stack.size ≤ k := by
      rw [hstack] at hsize
      exact Nat.le_of_succ_le_succ hsize
    obtain ⟨outcome, m', added, hrun, hpadded, hadded⟩ := h v _ hlow hspelled
    refine ⟨outcome, m', added, ?_, fun history => ?_, hadded⟩
    · rw [hrun]
      simp [Stack.size]
    · rw [← hpadded history, Machine.padded_cons hstack]
      rfl

theorem Takes.pads (h : Takes (AppendsOnly allowed) k r) : Pads allowed k r := by
  induction h with
  | done hr => exact hr.pads
  | operand _ ih => exact .operand ih
  | misspelled k text => exact fun m _ hspelled => absurd rfl (hspelled text)

/-! ### Refusals -/

theorem AppendsOnly.recover {cause : Refusal} (h : allowed (.recovered cause.message)) :
    AppendsOnly allowed (recover cause) :=
  .bind ((Answers.pushes cause.restore).appendsOnly allowed) fun _ => appendsOnly_record h

/-- A refusal comes after the operands, and is recovered from in the same way
on both machines. -/
theorem Pads.recovering (h : Pads allowed k r)
    (hmessage : ∀ cause : Refusal, allowed (.recovered cause.message)) :
    Pads allowed k (recovering r) := by
  intro m hsize hspelled
  have hspelled' : Spelled (runOn r m).1 := by
    intro text hfault
    have hrun : runOn r m = (.error (.fault (.misspelledNumber text)), (runOn r m).2) :=
      Prod.ext hfault rfl
    apply hspelled text
    rw [runOn_recovering_of_ne hrun nofun]
  obtain ⟨outcome, m', added, hrun, hpadded, hadded⟩ := h m hsize hspelled'
  by_cases hrefusal : ∃ cause, outcome = .error (.refusal cause)
  · obtain ⟨cause, rfl⟩ := hrefusal
    obtain ⟨outcome, m₂, more, hmore, hmoreAdded⟩ :=
      (AppendsOnly.recover (hmessage cause) : AppendsOnly allowed _) m'
    refine ⟨outcome, m₂, added ++ more, ?_, fun history => ?_, ?_⟩
    · rw [runOn_recovering_of_refusal hrun, hmore, Array.append_assoc]
    · rw [runOn_recovering_of_refusal (hpadded history), hmore, Array.append_assoc]
    · intro e he
      exact (Array.mem_append.mp he).elim (hadded e) (hmoreAdded e)
  · exact ⟨outcome, m', added, runOn_recovering_of_ne hrun hrefusal, fun history =>
      runOn_recovering_of_ne (hpadded history) hrefusal, hadded⟩

end Routine

open Routine

theorem Text.head?_append {s : String} {c : Char} (h : s.toList.head? = some c) (t : String) :
    (s ++ t).toList.head? = some c := by
  rw [String.toList_append, List.head?_append, h]
  rfl

/-- The message of a refusal begins with another letter than that of an
underflow. -/
theorem Refusal.exists_head?_message (cause : Refusal) :
    ∃ c, c ≠ 'N' ∧ cause.message.toList.head? = some c := by
  unfold message
  cases cause with
  | emptyText => exact ⟨'F', by decide, by decide⟩
  | zeroStep => exact ⟨'r', by decide, by decide⟩
  | indexOutOfRange index items =>
    simp only [String.append_assoc]
    exact ⟨'I', by decide, Text.head?_append (by decide) _⟩
  | undecodable code point =>
    simp only [String.append_assoc]
    exact ⟨'F', by decide, Text.head?_append (by decide) _⟩
  | rangeTooLong length =>
    simp only [String.append_assoc]
    exact ⟨'r', by decide, Text.head?_append (by decide) _⟩
  | repeatTooLong length count text times =>
    simp only [String.append_assoc]
    exact ⟨'C', by decide, Text.head?_append (by decide) _⟩
  | unsleepable seconds =>
    simp only [String.append_assoc]
    exact ⟨'C', by decide, Text.head?_append (by decide) _⟩

theorem Refusal.recovered_ne_underflow (cause : Refusal) :
    Event.recovered cause.message ≠ .underflow := by
  obtain ⟨c, hc, hfirst⟩ := cause.exists_head?_message
  intro h
  rw [Event.recovered.inj h] at hfirst
  have hunderflow : underflowMessage.toList.head? = some 'N' := by decide
  exact hc (Option.some.inj (hfirst.symm.trans hunderflow))

/-! ### The channels of reports -/

namespace History

/-- Each report is a line of the log. -/
theorem log_underflows (n : Nat) : log (Array.replicate n .underflow) = String.join
    (List.replicate n "Error: Not enough values on the stack, using the default value\n") := by
  have hline : Event.underflow.log =
      "Error: Not enough values on the stack, using the default value\n" := by decide
  rw [log, textOf_eq, Array.toList_replicate, List.map_replicate, hline]

theorem output_underflows (n : Nat) : output (Array.replicate n .underflow) = "" := by
  apply textOf_eq_empty
  intro e he
  rw [Array.toList_replicate] at he
  rw [List.eq_of_mem_replicate he]
  rfl

theorem prompts_underflows (n : Nat) : prompts (Array.replicate n .underflow) = [] := by
  simp [prompts, Event.underflow, Event.prompt?]

theorem sleeps_underflows (n : Nat) : sleeps (Array.replicate n .underflow) = [] := by
  simp [sleeps, Event.underflow, Event.sleep?]

end History

/-! ### Commands -/

/-- How a run on a low stack compares with the run on the padded one. -/
structure Underfilled (missing : Nat) (m padded : Machine)
    (low full : Except Interrupt Unit × Machine) : Prop where
  outcome : low.1 = full.1
  stack : low.2.stack = full.2.stack
  store : low.2.store = full.2.store
  host : low.2.host = full.2.host
  output : (m.added low.2).output = (padded.added full.2).output
  prompts : (m.added low.2).prompts = (padded.added full.2).prompts
  sleeps : (m.added low.2).sleeps = (padded.added full.2).sleeps
  log : (m.added low.2).log =
    String.join (List.replicate missing
      "Error: Not enough values on the stack, using the default value\n") ++
      (padded.added full.2).log

/-- Both runs have added a note and then the same events, but for the reports
in between. -/
theorem Underfilled.of_runs {missing : Nat} {m padded m' : Machine}
    {low full : Except Interrupt Unit × Machine} {outcome : Except Interrupt Unit} {name : String}
    {added : History}
    (hlow : low = (outcome, m'.withHistory (m.history.push (.commandEntered name) ++
      Array.replicate missing .underflow ++ added)))
    (hfull : full =
      (outcome, m'.withHistory (padded.history.push (.commandEntered name) ++ added))) :
    Underfilled missing m padded low full := by
  subst hlow hfull
  have hadded : m.added (m'.withHistory (m.history.push (.commandEntered name) ++
      Array.replicate missing .underflow ++ added)) =
      #[.commandEntered name] ++ (Array.replicate missing .underflow ++ added) :=
    Machine.added_of_push Array.append_assoc
  have hpadded : padded.added (m'.withHistory _) = #[.commandEntered name] ++ added :=
    Machine.added_of_push rfl
  refine ⟨rfl, rfl, rfl, rfl, ?_, ?_, ?_, ?_⟩
  all_goals rw [hadded, hpadded]
  · rw [History.output_append, History.output_append, History.output_append,
      History.output_underflows, String.empty_append]
  · rw [History.prompts_append, History.prompts_append, History.prompts_append,
      History.prompts_underflows, List.nil_append]
  · rw [History.sleeps_append, History.sleeps_append, History.sleeps_append,
      History.sleeps_underflows, List.nil_append]
  · have hnote : History.log #[.commandEntered name] = "" := History.textOf_singleton ..
    rw [History.log_append, History.log_append, History.log_append, hnote, String.empty_append,
      String.empty_append, History.log_underflows]

/-- **Underflow is a stack padded with blanks.**  A command on a stack with
fewer values than it takes, none of them a misspelled number that is taken for
a number, ends as it does on the stack filled up with blanks from below.  The
log has one error for each missing value and then what it has for the full
stack, where operators and effects miss nothing. -/
theorem execute_padded (c : Command) (bound : Nat) (m : Machine)
    (hlow : m.stack.size < c.arity)
    (hspelled : Spelled (runOn (execute (evaluate bound) bound c.name) m).1) :
    let missing := c.arity - m.stack.size
    let padded := m.above (List.replicate missing .blank)
    let low := runOn (execute (evaluate bound) bound c.name) m
    let full := runOn (execute (evaluate bound) bound c.name) padded
    Underfilled missing m padded low full ∧
      ((¬∃ ctl, c = .control ctl) → .underflow ∉ padded.added full.2) := by
  intro missing padded low full
  have hpads := (c.takes bound).pads.recovering fun cause => Or.inr cause.recovered_ne_underflow
  have hspelled' :
      Spelled (runOn (recovering (c.run (evaluate bound) bound)) (m.noting c.name)).1 := by
    rw [← runOn_execute_name]
    exact hspelled
  obtain ⟨outcome, m', added, hrun, hpadded, hadded⟩ :=
    hpads (m.noting c.name) (Nat.le_of_lt hlow) hspelled'
  have hlowRun : low = _ := (runOn_execute_name (evaluate bound) bound c m).trans hrun
  have hfullRun : full = _ := (runOn_execute_name (evaluate bound) bound c padded).trans
    (hpadded (m.history.push (.commandEntered c.name)))
  refine ⟨.of_runs hlowRun hfullRun, fun hcontrol hmem => ?_⟩
  -- what the full stack adds is the note of the command and then allowed events
  rw [hfullRun, Machine.added_of_push rfl] at hmem
  rcases Array.mem_append.mp hmem with hnote | hmem
  · cases Array.mem_singleton.mp hnote
  · exact (hadded _ hmem).elim hcontrol fun hne => hne rfl

/-- An index for a list that is missing, and so is out of range. -/
theorem execute_padded_get :
    let m : Machine := { Machine.bare with stack := .ofList [.text "abc"] }
    let run := fun m => runOn (execute (evaluate 1) 1 (Command.operator .get).name) m
    m.stack.size < (Command.operator .get).arity ∧ Spelled (run m).1 ∧
      Underfilled 1 m (m.above [.blank]) (run m) (run (m.above [.blank])) ∧
      .underflow ∉ (m.above [.blank]).added (run (m.above [.blank])).2 := by
  intro m run
  have hlow : m.stack.size < (Command.operator .get).arity := by decide
  have hends : (run m).1.toBool = true := by decide +kernel
  have hspelled : Spelled (run m).1 := by
    intro text hfault
    rw [hfault] at hends
    cases hends
  have hpadded := execute_padded (.operator .get) 1 m hlow hspelled
  exact ⟨hlow, hspelled, hpadded.1, hpadded.2 nofun⟩

end ReversePolish
