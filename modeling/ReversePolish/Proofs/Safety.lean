/-
ReversePolish/Proofs/Safety.lean

No program crashes.  On an orderly machine every evaluation that does not come
to the command `decode` keeps the machine orderly, whatever code it makes and
evaluates on the way (`evaluate_sound`): it ends normally, with an exit, or
because a prompt had no answer.

* A routine is *guarded* if it keeps machines orderly in all runs that trace
  no `decode`.  Since the history only grows, the parts of such a run trace
  none either.
* A refusal of a command never leaves the evaluation of its token.
* Prompts are counted against answers, so that a host with enough answers is
  never asked in vain (`Assembled.accounts`).
-/
import ReversePolish.Proofs.Evaluation
import ReversePolish.Proofs.Keeping
import ReversePolish.Proofs.Simulation

namespace ReversePolish

/-- An event other than the announcement of `decode`. -/
def Event.Undecoded (e : Event) : Prop := ∀ stack, e ≠ .traced stack Operator.decode.name

namespace Routine

variable {α β : Type} {allowed : Interrupt → Prop} {post : α → Prop}

/-! ### Guarded routines -/

/-- The routine keeps orderly machines orderly in all runs without `decode`. -/
def Guarded (allowed : Interrupt → Prop) (post : α → Prop) (r : Routine α) : Prop :=
  ∀ m : Machine, m.Orderly → (runOn r m).2.history.All Event.Undecoded →
    Kept allowed post (runOn r m)

theorem Keeps.guarded {r : Routine α} (h : Keeps allowed post r) : Guarded allowed post r :=
  fun m hm _ => h m hm

theorem Guarded.mono {r : Routine α} {allowed' : Interrupt → Prop} (h : Guarded allowed post r)
    (himp : ∀ interrupt, allowed interrupt → allowed' interrupt) : Guarded allowed' post r := by
  intro m hm hevents
  have hkept := h m hm hevents
  rcases hrun : runOn r m with ⟨interrupt | a, m'⟩
  · rw [hrun] at hkept
    exact ⟨himp interrupt hkept.1, hkept.2⟩
  · rw [hrun] at hkept
    exact hkept

/-- What follows can only add to the history. -/
theorem Guarded.bind {r : Routine α} {next : α → Routine β} {last : β → Prop}
    (hassembled : ∀ a, Assembled (fun _ => True) (next a)) (hr : Guarded allowed post r)
    (hnext : ∀ a, post a → Guarded allowed last (next a)) : Guarded allowed last (r >>= next) := by
  intro m hm hevents
  rcases hrun : runOn r m with ⟨interrupt | a, m₁⟩
  · have hfirst := hr m hm
    rw [runOn_bind_of_error hrun] at hevents ⊢
    rw [hrun] at hfirst
    exact hfirst hevents
  · have hfirst := hr m hm
    rw [runOn_bind_of_ok hrun] at hevents ⊢
    rw [hrun] at hfirst
    have hkept := hfirst (hevents.of_grown ((hassembled a).appends.history_eq rfl))
    exact hnext a hkept.1 m₁ hkept.2 hevents

/-- After a routine that keeps every machine orderly. -/
theorem Keeps.bind_guarded {r : Routine α} {next : α → Routine β} {last : β → Prop}
    (hr : Keeps allowed post r) (hnext : ∀ a, post a → Guarded allowed last (next a)) :
    Guarded allowed last (r >>= next) := by
  intro m hm hevents
  have hfirst := hr m hm
  rcases hrun : runOn r m with ⟨interrupt | a, m₁⟩
  · rw [hrun] at hfirst
    rw [runOn_bind_of_error hrun]
    exact hfirst
  · rw [hrun] at hfirst
    rw [runOn_bind_of_ok hrun] at hevents ⊢
    exact hnext a hfirst.1 m₁ hfirst.2 hevents

theorem Guarded.forM {step : α → Routine Unit} {items : List α}
    (hassembled : ∀ a, Assembled (fun _ => True) (step a))
    (h : ∀ a ∈ items, Guarded allowed (fun _ => True) (step a)) :
    Guarded allowed (fun _ => True) (items.forM step) := by
  induction items with
  | nil => exact (keeps_pure trivial).guarded
  | cons a items ih =>
    have hrest := ih fun b hb => h b (List.mem_cons_of_mem a hb)
    exact .bind (fun _ => .forM hassembled items) (h a List.mem_cons_self) fun _ _ => hrest

theorem Guarded.mapM {step : α → Routine β} {items : List α} {last : β → Prop}
    (hassembled : ∀ a, Assembled (fun _ => True) (step a))
    (h : ∀ a ∈ items, Guarded allowed last (step a)) :
    Guarded allowed (fun results => ∀ b ∈ results, last b) (items.mapM step) := by
  induction items with
  | nil =>
    rw [List.mapM_nil]
    exact (keeps_pure nofun).guarded
  | cons a items ih =>
    have hrest := ih fun b hb => h b (List.mem_cons_of_mem a hb)
    rw [List.mapM_cons]
    refine .bind (fun b => .bind (.mapM hassembled items) fun _ => .pure _) (h a List.mem_cons_self)
      fun b hb => .bind (fun _ => .pure _) hrest fun results hresults => ?_
    refine (keeps_pure fun c hc => ?_).guarded
    rcases List.mem_cons.mp hc with rfl | hc
    · exact hb
    · exact hresults c hc

/-- A token is dealt with only if it is not `decode`. -/
theorem Guarded.trace {token : String} {r : Routine Unit}
    (hassembled : Assembled (fun _ => True) r)
    (h : token ≠ Operator.decode.name → Guarded allowed (fun _ => True) r) :
    Guarded allowed (fun _ => True) (do trace token; r) := by
  intro m hm hevents
  rw [runOn_bind_of_ok (runOn_trace token m)] at hevents ⊢
  refine h ?_ _ (hm.record _) hevents
  -- the trace of `decode` would still be there at the end
  rintro rfl
  have hearlier := hevents.of_grown (hassembled.appends.history_eq rfl)
  exact hearlier _ Array.mem_push_self m.stack rfl

/-- A refusal gives back plain values and is over. -/
theorem keeps_recover {cause : Refusal} (h : ∀ v ∈ cause.restore, v.Written Plain) :
    Keeps allowed (fun _ => True) (recover cause) := by
  have hpushes : ∀ values : List Value, (∀ v ∈ values, v.Written Plain) →
      Keeps allowed (fun _ => True) (values.forM push) := by
    intro values hvalues
    induction values with
    | nil => exact keeps_pure trivial
    | cons v values ih =>
      apply (keeps_push (hvalues v List.mem_cons_self)).bind
      intro _ _
      exact ih fun w hw => hvalues w (List.mem_cons_of_mem v hw)
  exact (hpushes cause.restore h).bind fun _ _ => keeps_record _

theorem Guarded.recovering {r : Routine Unit}
    (h : Guarded Interrupt.Tolerable (fun _ => True) r) :
    Guarded Interrupt.Expected (fun _ => True) (recovering r) := by
  intro m hm hevents
  rcases hrun : runOn r m with ⟨outcome, m₁⟩
  have hkept := h m hm
  rw [hrun] at hkept
  by_cases hrefusal : ∃ cause, outcome = .error (.refusal cause)
  · obtain ⟨cause, rfl⟩ := hrefusal
    rw [runOn_recovering_of_refusal hrun] at hevents ⊢
    -- the history is known at the end only, and the refusal came before
    have happends : Appends (recover cause) :=
      (recover_assembled cause : Assembled (fun _ => True) _).appends
    have hfirst := hkept (hevents.of_grown (happends.history_eq rfl))
    exact keeps_recover hfirst.1 m₁ hfirst.2
  · rw [runOn_recovering_of_ne hrun hrefusal] at hevents ⊢
    have hfirst := hkept hevents
    rcases outcome with (_ | _ | cause | _) | _
    case error.refusal => exact absurd ⟨cause, rfl⟩ hrefusal
    all_goals exact hfirst

end Routine

open Routine

/-- What nested evaluations are known to do. -/
structure Sound (evaluate : String → Routine Unit) : Prop where
  assembled : ∀ source, Assembled (fun _ => True) (evaluate source)
  guarded : ∀ source, Written Plain source →
    Guarded Interrupt.Expected (fun _ => True) (evaluate source)

section Nested

variable {evaluate : String → Routine Unit}

/-! ### Control -/

namespace Control

theorem whileTrue_guarded (h : Sound evaluate) {condition body : String}
    (hcondition : Written Plain condition) (hbody : Written Plain body) (bound : Nat) :
    Guarded Interrupt.Expected (fun _ => True) (whileTrue evaluate condition body bound) := by
  induction bound with
  | zero => exact (keeps_throw trivial).guarded
  | succ bound ih =>
    have hloop := whileTrue_assembled h.assembled condition body
    have hagain : ∀ holds : Bool, Assembled (fun _ => True) (do
        if holds then
          evaluate body
          whileTrue evaluate condition body bound) := by
      intro holds
      cases holds with
      | false => exact .pure ()
      | true => exact .bind (h.assembled body) fun _ => hloop bound
    refine .bind (fun _ => .bind .popTruth hagain) (h.guarded condition hcondition) fun _ _ => ?_
    apply keeps_popTruth.bind_guarded
    intro holds _
    cases holds with
    | false => exact (keeps_pure trivial).guarded
    | true => exact .bind (fun _ => hloop bound) (h.guarded body hbody) fun _ _ => ih

/-- The operands of a loop over a list are plain. -/
structure Binding.IsPlain (b : Binding) : Prop where
  items : ∀ v ∈ b.items, v.Written Plain
  name : Written Plain b.name
  code : Written Plain b.code

theorem keeps_popBinding {allowed : Interrupt → Prop} :
    Keeps allowed Binding.IsPlain popBinding := by
  refine keeps_popText.bind fun code hcode => keeps_popText.bind fun name hname => ?_
  exact keeps_popList.bind fun items hitems => keeps_pure ⟨hitems, hname, hcode⟩

theorem Binding.visit_guarded (h : Sound evaluate) {b : Binding} (hb : b.IsPlain) {item : Value}
    (hitem : item ∈ b.items) :
    Guarded Interrupt.Expected (fun _ => True) (b.visit evaluate item) := by
  apply (Effect.keeps_define hb.name (hb.items item hitem)).bind_guarded
  intro _ _
  exact h.guarded b.code hb.code

theorem run_guarded (h : Sound evaluate) (ctl : Control) (bound : Nat) :
    Guarded Interrupt.Expected (fun _ => True) (ctl.run evaluate bound) := by
  have hvisit : ∀ (b : Binding) item, Assembled (fun _ => True) (b.visit evaluate item) :=
    Binding.visit_assembled ⟨.effect .define, by decide, trivial⟩ h.assembled
  cases ctl with
  | evaluate => exact keeps_popText.bind_guarded fun code hcode => h.guarded code hcode
  | choose =>
    apply keeps_popTruth.bind_guarded
    intro condition _
    apply keeps_popText.bind_guarded
    intro otherwise hotherwise
    refine keeps_popText.bind_guarded fun code hcode => h.guarded _ ?_
    split
    · exact hcode
    · exact hotherwise
  | loop =>
    apply keeps_popText.bind_guarded
    intro body hbody
    apply keeps_popText.bind_guarded
    intro condition hcondition
    exact whileTrue_guarded h hcondition hbody bound
  | forEach =>
    refine keeps_popBinding.bind_guarded fun b hb => .forM (hvisit b) fun item hitem => ?_
    exact Binding.visit_guarded h hb hitem
  | mapEach =>
    apply keeps_popBinding.bind_guarded
    intro b hb
    have hresults : Guarded Interrupt.Expected (fun results => ∀ v ∈ results, v.Written Plain)
        (b.items.mapM fun item => do b.visit evaluate item; pop) := by
      refine .mapM (fun item => .bind (hvisit b item) fun _ => .pop) fun item hitem => ?_
      have hbody := Binding.visit_guarded h hb hitem
      exact .bind (fun _ => .pop) hbody fun _ _ => keeps_pop.guarded
    refine .bind (fun _ => .push _) hresults fun results hwritten => ?_
    exact (keeps_push (Value.written_list.mpr hwritten)).guarded
  | filterEach =>
    apply keeps_popBinding.bind_guarded
    intro b hb
    have hresults : Guarded Interrupt.Expected
        (fun results : List (Value × Bool) => ∀ p ∈ results, p.1.Written Plain)
        (b.items.mapM fun item => do b.visit evaluate item; return (item, ← popTruth)) := by
      refine .mapM (fun item => .bind (hvisit b item) fun _ => .bind .popTruth fun _ => .pure _)
        fun item hitem => ?_
      have hbody := Binding.visit_guarded h hb hitem
      refine .bind (fun _ => .bind .popTruth fun _ => .pure _) hbody fun _ _ => ?_
      refine keeps_popTruth.bind_guarded fun holds _ => Keeps.guarded ?_
      exact keeps_pure (hb.items item hitem)
    refine .bind (fun _ => .push _) hresults fun results hwritten => ?_
    refine (keeps_push (Value.written_list.mpr fun v hv => ?_)).guarded
    obtain ⟨p, hp, rfl⟩ := List.mem_map.mp hv
    exact hwritten p (List.mem_filter.mp hp).1

end Control

/-! ### Tokens and sources -/

/-- A list literal gathers plain values. -/
theorem collect_guarded (h : Sound evaluate) {body : String} (hbody : Written Plain body)
    (token : String) :
    Guarded Interrupt.Expected (fun _ => True) (collect evaluate token body) := by
  intro m hm hevents
  have hentering : (m.entering token).Orderly := hm.record _
  have hkept := h.guarded body hbody (m.entering token) hentering
  rcases hrun : runOn (evaluate body) (m.entering token) with ⟨interrupt | ⟨⟩, m₁⟩
  · rw [hrun] at hkept
    rw [runOn_collect_of_error hrun] at hevents ⊢
    exact hkept hevents
  · rw [hrun] at hkept
    rw [runOn_collect_of_ok hrun] at hevents ⊢
    exact ⟨trivial, (hkept hevents).2.gather _⟩

theorem execute_guarded (h : Sound evaluate) (bound : Nat) {name : String}
    (hname : Written Plain name) (hdecode : name ≠ Operator.decode.name) :
    Guarded Interrupt.Expected (fun _ => True) (execute evaluate bound name) := by
  unfold execute
  cases hcommand : Command.ofName? name with
  | none => exact (keeps_push (Value.written_text.mpr hname)).guarded
  | some command =>
    obtain rfl := Command.name_of_ofName? hcommand
    refine (keeps_record _).bind_guarded fun _ _ => .recovering ?_
    cases command with
    | operator op =>
      refine (Operator.keeps_run ?_).guarded
      rintro rfl
      exact hdecode rfl
    | effect eff => exact eff.keeps_run.guarded
    | control ctl =>
      -- what is nested recovers from its own refusals
      apply (ctl.run_guarded h bound).mono
      intro interrupt hexpected
      cases interrupt with
      | refusal cause => exact absurd hexpected id
      | exit | fault | exhausted => exact hexpected

theorem evaluateWord_guarded (h : Sound evaluate) (bound : Nat) {name : String}
    (hname : Written Plain name) (hdecode : name ≠ Operator.decode.name) :
    Guarded Interrupt.Expected (fun _ => True) (evaluateWord evaluate bound name) := by
  have hunbound : Guarded Interrupt.Expected (fun _ => True)
      (if '#' ∈ name.toList then record (.commented name) else execute evaluate bound name) := by
    split
    · exact (keeps_record _).guarded
    · exact execute_guarded h bound hname hdecode
  intro m hm hevents
  rw [evaluateWord, runOn_bind_of_ok (runOn_get m)] at hevents ⊢
  cases hlookup : m.store.lookup? name with
  | some v => exact ⟨trivial, hm.push (hm.written.store.lookup? hlookup)⟩
  | none =>
    rw [hlookup] at hevents
    exact hunbound m hm hevents

theorem evaluateToken_guarded (h : Sound evaluate) (bound : Nat) {token : String}
    (htoken : Written Plain token) (hdecode : token ≠ Operator.decode.name) :
    Guarded Interrupt.Expected (fun _ => True) (evaluateToken evaluate bound token) := by
  have hwritten := Token.written_ofText htoken
  unfold evaluateToken
  cases hof : Token.ofText token with
  | number n => exact (keeps_push (Value.written_number n)).guarded
  | misspelled spelling =>
    -- the one token that would fault
    exact absurd (Token.ofText_eq_misspelled hof).2 (Numeral.read_ne_misspelled htoken)
  | truth b => exact (keeps_push (Value.written_truth b)).guarded
  | text inside =>
    rw [hof] at hwritten
    exact (keeps_push (Value.written_text.mpr hwritten)).guarded
  | list body =>
    rw [hof] at hwritten
    exact collect_guarded h hwritten token
  | word name =>
    obtain rfl := Token.ofText_eq_word hof
    exact evaluateWord_guarded h bound htoken hdecode

end Nested

/-- Evaluations without `decode` keep orderly machines orderly and never
fault. -/
theorem evaluate_sound (bound : Nat) : Sound (evaluate bound) := by
  refine ⟨evaluate_assembled bound, ?_⟩
  -- the tokens of a source evaluate nested code with the bound before
  induction bound with
  | zero => exact fun source _ => (keeps_throw trivial).guarded
  | succ bound ih =>
    intro source hsource
    have hsound : Sound (evaluate bound) := ⟨evaluate_assembled bound, ih⟩
    have htoken : ∀ token, Assembled (fun _ => True) (evaluateToken (evaluate bound) bound token) :=
      fun token => evaluateToken_assembled trivial (evaluate_assembled bound) bound
    have hvisit : ∀ token, Assembled (fun _ => True) (visitToken (evaluate bound) bound token) :=
      fun token => visitToken_assembled (evaluate_assembled bound) bound
    refine .bind (fun _ => .settle) (.forM hvisit fun token hmem => ?_) fun _ _ => ?_
    · have hplain := hsource.tokenize coversAscii_plain token hmem
      exact .trace (htoken token) fun hdecode => evaluateToken_guarded hsound bound hplain hdecode
    · exact fun m hm _ => ⟨trivial, hm.record _⟩

/-! ### Prompts and answers -/

/-- The prompts made so far and the answers still there. -/
def Machine.questions (m : Machine) : Nat := m.history.prompts.length + m.host.replies.length

namespace Routine

variable {α β : Type} {announced : String → Prop} {r : Routine α}

/-- Every prompt uses up an answer, and a prompt without one is the last
thing that happens. -/
def Accounts (r : Routine α) : Prop :=
  ∀ ⦃m m' : Machine⦄ ⦃outcome : Except Interrupt α⦄, runOn r m = (outcome, m') →
    (outcome = .error (.fault .noReply) → m'.history.prompts.length = m.questions + 1) ∧
    (outcome ≠ .error (.fault .noReply) → m'.questions = m.questions)

theorem Accounts.of_run {outcome : Machine → Except Interrupt α} {next : Machine → Machine}
    (hrun : ∀ m, runOn r m = (outcome m, next m))
    (houtcome : ∀ m, outcome m ≠ .error (.fault .noReply))
    (hnext : ∀ m, (next m).questions = m.questions) : Accounts r := by
  intro m m' o hm
  rw [hrun m] at hm
  obtain ⟨rfl, rfl⟩ := Prod.mk.inj hm
  exact ⟨fun h => absurd h (houtcome m), fun _ => hnext m⟩

theorem Accounts.of_event {r : Routine Unit} {e : Machine → Event}
    (hrun : ∀ m, runOn r m = (.ok (), { m with history := m.history.push (e m) }))
    (he : ∀ m, (e m).prompt? = none) : Accounts r := by
  refine .of_run hrun (fun _ => nofun) fun m => ?_
  simp [Machine.questions, he m]

theorem Accounts.bind {next : α → Routine β} (hr : Accounts r) (hnext : ∀ a, Accounts (next a)) :
    Accounts (r >>= next) := by
  intro m m' outcome hrun
  rcases hfirst : runOn r m with ⟨interrupt | a, m₁⟩
  · rw [runOn_bind_of_error hfirst] at hrun
    obtain ⟨rfl, rfl⟩ := Prod.mk.inj hrun
    obtain ⟨hnone, hsame⟩ := hr hfirst
    exact ⟨fun h => hnone (congrArg _ (Except.error.inj h)), fun h => hsame fun heq =>
      h (congrArg _ (Except.error.inj heq))⟩
  · rw [runOn_bind_of_ok hfirst] at hrun
    have hsame := (hr hfirst).2 nofun
    have hlater := hnext a hrun
    rw [hsame] at hlater
    exact hlater

theorem Accounts.recovering {r : Routine Unit} (hr : Accounts r)
    (hrecover : ∀ cause, Accounts (recover cause)) : Accounts (recovering r) := by
  intro m m' outcome hrun
  rcases hfirst : runOn r m with ⟨first, m₁⟩
  by_cases hrefusal : ∃ cause, first = .error (.refusal cause)
  · obtain ⟨cause, rfl⟩ := hrefusal
    rw [runOn_recovering_of_refusal hfirst] at hrun
    have hsame := (hr hfirst).2 nofun
    have hlater := hrecover cause hrun
    rw [hsame] at hlater
    exact hlater
  · rw [runOn_recovering_of_ne hfirst hrefusal] at hrun
    obtain ⟨rfl, rfl⟩ := Prod.mk.inj hrun
    exact hr hfirst

theorem accounts_ask (message : String) : Accounts (ask message) := by
  intro m m' outcome hrun
  rw [runOn_ask] at hrun
  obtain ⟨rfl, rfl⟩ := Prod.mk.inj hrun
  cases hreplies : m.host.replies with
  | nil => simp [Machine.questions, Event.prompt?, hreplies]
  | cons reply later =>
    refine ⟨nofun, fun _ => ?_⟩
    simp [Machine.questions, Event.prompt?, hreplies]
    omega

theorem accounts_readClock : Accounts readClock := by
  refine .of_run runOn_readClock (fun m => ?_) fun m => rfl
  cases hvalue : m.host.clock.reading.toValue with
  | ok v => exact nofun
  | error cause =>
    obtain rfl := Datum.toValue_error hvalue
    exact nofun

theorem accounts_collect {evaluate : String → Routine Unit} {body : String} (token : String)
    (h : Accounts (evaluate body)) : Accounts (collect evaluate token body) := by
  intro m m' outcome hrun
  have hentering : (m.entering token).questions = m.questions := by
    simp [Machine.questions, Machine.entering, Event.prompt?]
  rcases hinner : runOn (evaluate body) (m.entering token) with ⟨interrupt | ⟨⟩, m₁⟩
  · rw [runOn_collect_of_error hinner] at hrun
    obtain ⟨rfl, rfl⟩ := Prod.mk.inj hrun
    have hbody := h hinner
    rw [hentering] at hbody
    exact hbody
  · rw [runOn_collect_of_ok hinner] at hrun
    obtain ⟨rfl, rfl⟩ := Prod.mk.inj hrun
    have hsame := (h hinner).2 nofun
    rw [hentering] at hsame
    exact ⟨nofun, fun _ => hsame⟩

theorem Assembled.accounts (h : Assembled announced r) : Accounts r := by
  induction h with
  | pure a => exact .of_run (runOn_pure a) (fun _ => nofun) fun _ => rfl
  | bind _ _ ihr ihnext => exact ihr.bind ihnext
  | throw interrupt hpermitted =>
    refine .of_run (runOn_throw interrupt) (fun _ => ?_) fun _ => rfl
    intro heq
    obtain rfl := Except.error.inj heq
    exact hpermitted
  | recovering _ _ ihr ihrecover => exact ihr.recovering ihrecover
  | record e hpermitted =>
    refine .of_event (fun _ => rfl) fun _ => ?_
    cases e with
    | prompted message => exact absurd hpermitted id
    | _ => rfl
  | push v => exact .of_run (fun _ => rfl) (fun _ => nofun) fun _ => rfl
  | pop =>
    intro m m' outcome hrun
    rw [runOn_pop] at hrun
    cases hpop : m.stack.pop? with
    | none =>
      rw [hpop] at hrun
      obtain ⟨rfl, rfl⟩ := Prod.mk.inj hrun
      exact ⟨nofun, fun _ => by simp [Machine.questions, Event.prompt?]⟩
    | some top =>
      rw [hpop] at hrun
      obtain ⟨rfl, rfl⟩ := Prod.mk.inj hrun
      exact ⟨nofun, fun _ => rfl⟩
  | depth => exact .of_run (fun _ => rfl) (fun _ => nofun) fun _ => rfl
  | define name v => exact .of_run (fun _ => rfl) (fun _ => nofun) fun _ => rfl
  | free name => exact .of_run (fun _ => rfl) (fun _ => nofun) fun _ => rfl
  | dumpStore => exact .of_event (fun _ => rfl) fun _ => rfl
  | names => exact .of_run (fun _ => rfl) (fun _ => nofun) fun _ => rfl
  | lookup name _ _ ih =>
    intro m m' outcome hrun
    rw [runOn_bind_of_ok (runOn_get m)] at hrun
    cases hlookup : m.store.lookup? name with
    | some v =>
      rw [hlookup] at hrun
      obtain ⟨rfl, rfl⟩ := Prod.mk.inj hrun
      exact ⟨nofun, fun _ => rfl⟩
    | none =>
      rw [hlookup] at hrun
      exact ih hrun
  | ask message => exact accounts_ask message
  | readClock => exact accounts_readClock
  | collect token _ ih => exact accounts_collect token ih
  | trace token _ ih =>
    refine .bind (.of_event (fun _ => rfl) fun _ => rfl) fun _ => ih
  | settle => exact .of_event (fun _ => rfl) fun _ => rfl

end Routine

/-! ### Safety -/

/-- **No program crashes.**  Let neither the source nor anything on the
machine or from its host have an `İ` or `ı` in it, let the host answer every
prompt and show readings that are values, and let the run trace no `decode`.
If the run ends at all, it ends normally or with an exit. -/
theorem evaluates_safely {source : String} {m m' : Machine} {outcome : Except Interrupt Unit}
    (h : Evaluates source m outcome m') (hsource : Written Plain source) (hm : m.Written Plain)
    (hclock : ∀ d ∈ m.host.clock.readings, ∃ v, d.toValue = .ok v)
    (hreplies : (m.added m').prompts.length ≤ m.host.replies.length)
    (hdecode : ∀ stack, .traced stack "decode" ∉ m.added m') :
    outcome = .ok () ∨ ∃ status, outcome = .error (.exit status) := by
  obtain ⟨hended, bound, hrun⟩ := h
  have hassembled : Assembled (fun _ => True) (evaluate bound source) :=
    evaluate_assembled bound source
  -- the run is taken up from an empty history on
  have hfresh := hassembled.appends.run_over hrun #[]
  rw [Array.empty_append] at hfresh
  have horderly : (m.withHistory #[]).Orderly := ⟨{ hm with }, hclock⟩
  have hkept := (evaluate_sound bound).guarded source hsource _ horderly
  rw [hfresh] at hkept
  have hexpected := hkept fun e he stack heq => hdecode stack (heq ▸ he)
  rcases outcome with (status | cause | cause | _) | ⟨⟩
  · exact Or.inr ⟨status, rfl⟩
  · obtain rfl : cause = .noReply := hexpected.1
    -- a prompt without an answer is one more than there are answers
    have hcount := (hassembled.accounts hfresh).1 rfl
    simp only [Machine.questions, Machine.history_withHistory, Machine.host_withHistory] at hcount
    have hnone : (History.prompts #[]).length = 0 := rfl
    omega
  · exact absurd hexpected.1 id
  · exact absurd rfl hended
  · exact Or.inl rfl

/-- A variable in a list literal, a prompt, and an exit in code on the
stack. -/
theorem evaluates_safely_exit :
    let source := "[x] (é) input (exit) eval"
    let m : Machine := { Machine.bare with
      stack := .ofList [.text "é"], store := .ofList [("x", .truth true)]
      host.replies := [.integer 20], host.clock.reading := .tuple [.nothing] }
    let run := runOn (evaluate 3 source) m
    Evaluates source m run.1 run.2 ∧ Written Plain source ∧ m.Written Plain ∧
      (∀ d ∈ m.host.clock.readings, ∃ v, d.toValue = .ok v) ∧
      (m.added run.2).prompts.length ≤ m.host.replies.length ∧
      (∀ stack, .traced stack "decode" ∉ m.added run.2) ∧
      (run.1 = .ok () ∨ ∃ status, run.1 = .error (.exit status)) := by
  intro source m run
  have hends : Evaluates source m run.1 run.2 := evaluates_of_ended (by decide +kernel)
  have hsource : Written Plain source := by decide +kernel
  have hm : m.Written Plain :=
    ⟨by decide +kernel, by decide +kernel, by decide +kernel, by decide +kernel⟩
  have hclock : ∀ d ∈ m.host.clock.readings, ∃ v, d.toValue = .ok v := by
    intro d hd
    obtain rfl := List.mem_singleton.mp hd
    exact ⟨_, rfl⟩
  have hreplies : (m.added run.2).prompts.length ≤ m.host.replies.length := by decide +kernel
  have hdecode : ∀ stack, .traced stack "decode" ∉ m.added run.2 := by
    have hall : (m.added run.2).toList.all (fun
        | .traced _ token => token != "decode"
        | _ => true) = true := by decide +kernel
    intro stack hmem
    have htoken : ("decode" != "decode") = true :=
      List.all_eq_true.mp hall _ (Array.mem_toList_iff.mpr hmem)
    cases htoken
  exact ⟨hends, hsource, hm, hclock, hreplies, hdecode,
    evaluates_safely hends hsource hm hclock hreplies hdecode⟩

end ReversePolish
