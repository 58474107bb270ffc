/-
ReversePolish/Proofs/Attribution.lean

Effects and their commands.  What a run does beyond its stack can be told from
its log.  The output grows only after a token `print`, a prompt is made only
after `input`, a sleep only after `sleep`, and the variables change only after
a command that binds or frees one.  The program itself would not tell, since a
run may make code and evaluate it.

`Attributed m m'` compares the machine before and after: what differs is due
to tokens that have been traced in between or before.  The relation is
reflexive and transitive, and every primitive routine keeps it because its
command has been announced (`Machine.Announced`).  So every evaluation keeps
it, however it ends (`Assembled.attributes`).
-/
import ReversePolish.Proofs.Frame

namespace ReversePolish

/-- The commands that change the variables. -/
def changers : List Command := .effect .free :: binders

/-! ### Changes and their commands -/

/-- What has changed from `m` to `m'` is due to commands whose tokens have been
traced. -/
structure Attributed (m m' : Machine) : Prop where
  grown : ∃ added, m'.history = m.history ++ added
  output : ¬m'.Traced Effect.print.name → m'.history.output = m.history.output
  store : (∀ c ∈ changers, ¬m'.Traced c.name) → m'.store = m.store
  prompts : ¬m'.Traced Effect.input.name → m'.history.prompts = m.history.prompts
  sleeps : ¬m'.Traced Effect.sleep.name → m'.history.sleeps = m.history.sleeps

/-- An event that shows in a channel other than the log only after the command
for it. -/
structure Event.Licensed (m : Machine) (e : Event) : Prop where
  output : ¬m.Traced Effect.print.name → e.output = ""
  prompt : ¬m.Traced Effect.input.name → e.prompt? = none
  sleep : ¬m.Traced Effect.sleep.name → e.sleep? = none

namespace Attributed

variable {m m₁ m' : Machine}

/-- Nothing is recorded, and the variables change only after a command for
it. -/
theorem of_silent (hhistory : m'.history = m.history)
    (hstore : (∀ c ∈ changers, ¬m.Traced c.name) → m'.store = m.store) : Attributed m m' where
  grown := ⟨#[], by rw [hhistory, Array.append_empty]⟩
  output _ := by rw [hhistory]
  store hnone := by
    apply hstore
    intro c hc htraced
    exact hnone c hc (htraced.grow (by rw [hhistory, Array.append_empty]))
  prompts _ := by rw [hhistory]
  sleeps _ := by rw [hhistory]

theorem refl (m : Machine) : Attributed m m := of_silent rfl fun _ => rfl

/-- Only an event is recorded, and it is licensed. -/
theorem of_event {e : Event} (hhistory : m'.history = m.history.push e)
    (hstore : m'.store = m.store) (he : e.Licensed m) : Attributed m m' := by
  have hgrown : m'.history = m.history ++ #[e] := by rw [hhistory, Array.push_eq_append]
  -- what had been traced before is traced now
  have hearlier : ∀ {token}, ¬m'.Traced token → ¬m.Traced token := fun hnone htraced =>
    hnone (htraced.grow hgrown)
  refine ⟨⟨#[e], hgrown⟩, fun hnone => ?_, fun _ => hstore, fun hnone => ?_, fun hnone => ?_⟩
  · rw [hhistory, History.output_push, he.output (hearlier hnone), String.append_empty]
  · rw [hhistory, History.prompts_push, he.prompt (hearlier hnone)]
    exact List.append_nil _
  · rw [hhistory, History.sleeps_push, he.sleep (hearlier hnone)]
    exact List.append_nil _

theorem trans (h : Attributed m m₁) (h' : Attributed m₁ m') : Attributed m m' := by
  obtain ⟨first, hfirst⟩ := h.grown
  obtain ⟨second, hsecond⟩ := h'.grown
  have hearlier : ∀ {token}, ¬m'.Traced token → ¬m₁.Traced token := fun hnone htraced =>
    hnone (htraced.grow hsecond)
  refine ⟨⟨first ++ second, ?_⟩, fun hnone => ?_, fun hnone => ?_, fun hnone => ?_,
    fun hnone => ?_⟩
  · rw [hsecond, hfirst, Array.append_assoc]
  · exact (h'.output hnone).trans (h.output (hearlier hnone))
  · exact (h'.store hnone).trans (h.store fun c hc => hearlier (hnone c hc))
  · exact (h'.prompts hnone).trans (h.prompts (hearlier hnone))
  · exact (h'.sleeps hnone).trans (h.sleeps (hearlier hnone))

end Attributed

theorem Event.Quiet.licensed {e : Event} (h : e.Quiet) (m : Machine) : e.Licensed m :=
  ⟨fun _ => h.output, fun _ => h.prompt, fun _ => h.sleep⟩

/-- What a routine may record outright is licensed once its commands have been
traced. -/
theorem Event.Permitted.licensed {announced : String → Prop} {e : Event} {m : Machine}
    (h : e.Permitted announced) (hm : m.Announced announced) : e.Licensed m := by
  cases e with
  | printed line => exact ⟨fun hnone => absurd (hm _ h) hnone, fun _ => rfl, fun _ => rfl⟩
  | slept seconds => exact ⟨fun _ => rfl, fun _ => rfl, fun hnone => absurd (hm _ h) hnone⟩
  | prompted | traced | settled | dumped | listEntered | preludeEntered | preludeMissing =>
    exact absurd h id
  | commented | recovered | commandEntered | exitRequested =>
    exact Event.Quiet.licensed ⟨rfl, rfl, rfl⟩ m

namespace Routine

variable {α β : Type} {announced : String → Prop} {r : Routine α}

/-! ### Routines -/

/-- Whatever the routine changes is due to commands that have been traced,
provided that those announced have been. -/
def Attributes (announced : String → Prop) (r : Routine α) : Prop :=
  ∀ ⦃m m' : Machine⦄ ⦃outcome : Except Interrupt α⦄, m.Announced announced →
    runOn r m = (outcome, m') → Attributed m m'

theorem Attributes.of_run {outcome : Machine → Except Interrupt α} {next : Machine → Machine}
    (hrun : ∀ m, runOn r m = (outcome m, next m))
    (hnext : ∀ m, m.Announced announced → Attributed m (next m)) : Attributes announced r := by
  intro m m' o hm hrun'
  rw [hrun m] at hrun'
  obtain ⟨-, rfl⟩ := Prod.mk.inj hrun'
  exact hnext m hm

theorem Attributes.bind {next : α → Routine β} (hr : Attributes announced r)
    (hnext : ∀ a, Attributes announced (next a)) : Attributes announced (r >>= next) := by
  intro m m' outcome hm hrun
  rcases hfirst : runOn r m with ⟨interrupt | a, m₁⟩
  · rw [runOn_bind_of_error hfirst] at hrun
    obtain ⟨-, rfl⟩ := Prod.mk.inj hrun
    exact hr hm hfirst
  · rw [runOn_bind_of_ok hfirst] at hrun
    have hbefore := hr hm hfirst
    obtain ⟨added, hgrown⟩ := hbefore.grown
    exact hbefore.trans (hnext a (hm.grow hgrown) hrun)

theorem Attributes.recovering {r : Routine Unit} (hr : Attributes announced r)
    (hrecover : ∀ cause, Attributes announced (recover cause)) :
    Attributes announced (recovering r) := by
  intro m m' outcome hm hrun
  rcases hfirst : runOn r m with ⟨first, m₁⟩
  have hbefore := hr hm hfirst
  by_cases hrefusal : ∃ cause, first = .error (.refusal cause)
  · obtain ⟨cause, rfl⟩ := hrefusal
    rw [runOn_recovering_of_refusal hfirst] at hrun
    obtain ⟨added, hgrown⟩ := hbefore.grown
    exact hbefore.trans (hrecover cause (hm.grow hgrown) hrun)
  · rw [runOn_recovering_of_ne hfirst hrefusal] at hrun
    obtain ⟨-, rfl⟩ := Prod.mk.inj hrun
    exact hbefore

/-! ### The primitives -/

/-- An event that shows at most in the log needs no command. -/
theorem attributes_note {r : Routine Unit} {e : Machine → Event}
    (hrun : ∀ m, runOn r m = (.ok (), { m with history := m.history.push (e m) }))
    (he : ∀ m, (e m).Quiet) : Attributes announced r :=
  .of_run hrun fun m _ => .of_event rfl rfl ((he m).licensed m)

theorem attributes_pop : Attributes announced pop := by
  intro m m' outcome hm hrun
  rw [runOn_pop] at hrun
  split at hrun
  · obtain ⟨-, rfl⟩ := Prod.mk.inj hrun
    exact .of_silent rfl fun _ => rfl
  · obtain ⟨-, rfl⟩ := Prod.mk.inj hrun
    exact .of_event rfl rfl (Event.Quiet.licensed ⟨rfl, rfl, rfl⟩ m)

theorem attributes_define (name : String) (v : Value) (h : ∃ c ∈ binders, announced c.name) :
    Attributes announced (define name v) := by
  obtain ⟨c, hc, hannounced⟩ := h
  refine .of_run (fun _ => rfl) fun m hm => .of_silent rfl fun hnone => ?_
  exact absurd (hm _ hannounced) (hnone c (List.mem_cons_of_mem _ hc))

theorem attributes_free (name : String) (h : announced Effect.free.name) :
    Attributes announced (free name) := by
  refine .of_run (fun _ => rfl) fun m hm => .of_silent rfl fun hnone => ?_
  exact absurd (hm _ h) (hnone (.effect .free) List.mem_cons_self)

theorem attributes_ask (message : String) (h : announced Effect.input.name) :
    Attributes announced (ask message) := by
  refine .of_run (runOn_ask message) fun m hm => .of_event rfl rfl ?_
  exact ⟨fun _ => rfl, fun hnone => absurd (hm _ h) hnone, fun _ => rfl⟩

theorem attributes_collect {evaluate : String → Routine Unit} {body : String} (token : String)
    (h : Attributes announced (evaluate body)) :
    Attributes announced (collect evaluate token body) := by
  intro m m' outcome hm hrun
  have hentering : Attributed m (m.entering token) :=
    .of_event rfl rfl (Event.Quiet.licensed ⟨rfl, rfl, rfl⟩ m)
  have hannounced : (m.entering token).Announced announced := hm.grow Array.push_eq_append
  rcases hinner : runOn (evaluate body) (m.entering token) with ⟨interrupt | ⟨⟩, m₁⟩
  · rw [runOn_collect_of_error hinner] at hrun
    obtain ⟨-, rfl⟩ := Prod.mk.inj hrun
    exact hentering.trans (h hannounced hinner)
  · rw [runOn_collect_of_ok hinner] at hrun
    obtain ⟨-, rfl⟩ := Prod.mk.inj hrun
    exact (hentering.trans (h hannounced hinner)).trans (.of_silent rfl fun _ => rfl)

theorem attributes_trace {token : String} {r : Routine Unit}
    (h : Attributes (announcing token announced) r) :
    Attributes announced (do trace token; r) := by
  intro m m' outcome hm hrun
  rw [runOn_bind_of_ok (runOn_trace token m)] at hrun
  have htracing : Attributed m (m.tracing token) :=
    .of_event rfl rfl (Event.Quiet.licensed ⟨rfl, rfl, rfl⟩ m)
  exact htracing.trans (h (hm.tracing token) hrun)

theorem Assembled.attributes (h : Assembled announced r) : Attributes announced r := by
  -- only what reaches beyond the stack needs its announcement
  induction h with
  | pure a => exact .of_run (runOn_pure a) fun m _ => .refl m
  | bind _ _ ihr ihnext => exact ihr.bind ihnext
  | throw interrupt => exact .of_run (runOn_throw interrupt) fun m _ => .refl m
  | recovering _ _ ihr ihrecover => exact ihr.recovering ihrecover
  | record e hpermitted =>
    exact .of_run (fun _ => rfl) fun m hm => .of_event rfl rfl (hpermitted.licensed hm)
  | push v => exact .of_run (fun _ => rfl) fun m _ => .of_silent rfl fun _ => rfl
  | pop => exact attributes_pop
  | depth => exact .of_run (fun _ => rfl) fun m _ => .of_silent rfl fun _ => rfl
  | define name v hbinder => exact attributes_define name v hbinder
  | free name hfree => exact attributes_free name hfree
  | dumpStore => exact attributes_note (fun _ => rfl) fun _ => ⟨rfl, rfl, rfl⟩
  | names => exact .of_run (fun _ => rfl) fun m _ => .of_silent rfl fun _ => rfl
  | lookup name _ _ ih =>
    refine .bind (.of_run runOn_get fun m _ => .refl m) fun m => ?_
    cases m.store.lookup? name with
    | some v => exact .of_run (fun _ => rfl) fun m _ => .of_silent rfl fun _ => rfl
    | none => exact ih
  | ask message hinput => exact attributes_ask message hinput
  | readClock => exact .of_run runOn_readClock fun m _ => .of_silent rfl fun _ => rfl
  | collect token _ ih => exact attributes_collect token ih
  | trace token _ ih => exact attributes_trace ih
  | settle => exact attributes_note (fun _ => rfl) fun _ => ⟨rfl, rfl, rfl⟩

end Routine

open Routine

/-! ### Evaluations -/

/-- A token whose line is not in the log has not been traced. -/
theorem History.not_traced_of_log {h : History} {token : String}
    (hlog : Text.contains h.log (" <- " ++ token ++ "\n") = false) (stack : Stack) :
    Event.traced stack token ∉ h := by
  intro hmem
  refine not_infix_log hlog hmem ⟨stack.display.toList, [], ?_⟩
  simp [Event.log]

theorem Machine.not_traced_of_log {m : Machine} {token : String}
    (hlog : Text.contains m.history.log (" <- " ++ token ++ "\n") = false) : ¬m.Traced token :=
  fun ⟨stack, hmem⟩ => History.not_traced_of_log hlog stack hmem

/-- **Effects happen only through their commands.**  Look at the log that an
evaluation has added, whatever code it has made and evaluated and however it
has ended, be it cut short at its bound.  Without a line for `print` the output
is as it was; without one for a command that binds or frees a variable, so are
the variables; without one for `input` there was no prompt, and without one
for `sleep` nothing was slept. -/
theorem evaluate_attributed {bound : Nat} {source : String} {m m' : Machine}
    {outcome : Except Interrupt Unit} (h : runOn (evaluate bound source) m = (outcome, m')) :
    (Text.contains (m.added m').log " <- print\n" = false →
      m'.history.output = m.history.output) ∧
    ((∀ name ∈ ["var", "free", "for", "map", "filter"],
      Text.contains (m.added m').log (" <- " ++ name ++ "\n") = false) → m'.store = m.store) ∧
    (Text.contains (m.added m').log " <- input\n" = false →
      m'.history.prompts = m.history.prompts) ∧
    (Text.contains (m.added m').log " <- sleep\n" = false →
      m'.history.sleeps = m.history.sleeps) := by
  have hassembled : Assembled (fun _ => False) (evaluate bound source) :=
    evaluate_assembled bound source
  have hgrown := hassembled.appends.history_eq h
  -- from an empty history on, only tokens of this very run have been traced
  have hfresh := hassembled.appends.run_over h #[]
  rw [Array.empty_append] at hfresh
  have hattributed : Attributed (m.withHistory #[]) (m'.withHistory (m.added m')) :=
    hassembled.attributes nofun hfresh
  have hnames : ∀ c ∈ changers, c.name ∈ ["var", "free", "for", "map", "filter"] := by decide
  refine ⟨fun hlog => ?_, fun hlog => ?_, fun hlog => ?_, fun hlog => ?_⟩
  · have hsame : (m.added m').output = "" := hattributed.output (Machine.not_traced_of_log hlog)
    rw [hgrown, History.output_append, hsame, String.append_empty]
  · exact hattributed.store fun c hc => Machine.not_traced_of_log (hlog c.name (hnames c hc))
  · have hsame : (m.added m').prompts = [] := hattributed.prompts (Machine.not_traced_of_log hlog)
    rw [hgrown, History.prompts_append, hsame, List.append_nil]
  · have hsame : (m.added m').sleeps = [] := hattributed.sleeps (Machine.not_traced_of_log hlog)
    rw [hgrown, History.sleeps_append, hsame, List.append_nil]

/-- Code that is made while it runs and leaves with an exit, on a machine that
has printed before and that has a variable and an answer ready. -/
theorem evaluate_attributed_made :
    let m : Machine := { Machine.bare with
      stack := .ofList [.truth true], store := .ofList [("x", .blank)]
      host.replies := [.nothing], history := #[.printed "old"] }
    let run := runOn (evaluate 3 "(ex) (it) concat eval") m
    (∀ line ∈ [" <- print\n", " <- input\n", " <- sleep\n"],
      Text.contains (m.added run.2).log line = false) ∧
    (∀ name ∈ ["var", "free", "for", "map", "filter"],
      Text.contains (m.added run.2).log (" <- " ++ name ++ "\n") = false) ∧
    run.2.history.output = m.history.output ∧ run.2.store = m.store ∧
      run.2.history.prompts = m.history.prompts ∧ run.2.history.sleeps = m.history.sleeps := by
  intro m run
  have hlines : ∀ line ∈ [" <- print\n", " <- input\n", " <- sleep\n"],
      Text.contains (m.added run.2).log line = false := by
    simp only [Text.contains, History.log, History.textOf_eq, String.toList_join]
    decide +kernel
  have hchangers : ∀ name ∈ ["var", "free", "for", "map", "filter"],
      Text.contains (m.added run.2).log (" <- " ++ name ++ "\n") = false := by
    simp only [Text.contains, History.log, History.textOf_eq, String.toList_join]
    decide +kernel
  have hrun : runOn (evaluate 3 "(ex) (it) concat eval") m = (run.1, run.2) :=
    (Prod.eta run).symm
  obtain ⟨houtput, hstore, hprompts, hsleeps⟩ := evaluate_attributed hrun
  exact ⟨hlines, hchangers, houtput (hlines _ (by decide)), hstore hchangers,
    hprompts (hlines _ (by decide)), hsleeps (hlines _ (by decide))⟩

end ReversePolish
