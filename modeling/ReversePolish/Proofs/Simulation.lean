/-
ReversePolish/Proofs/Simulation.lean

Two runs side by side.  A relation between machines is kept by a routine if,
from related machines, the second run ends as the first does and leaves
related machines again (`Routine.Follows`).  It is enough to know this for
first runs all of whose events are harmless; since a history only grows, the
events of every part of such a run are harmless too.  For each way of putting
routines together, and for the primitives that look beyond the top of the
stack, there is one lemma that says what a relation needs for it.

What has been announced stands in the history: a token that a run acts on has
been traced before (`Machine.Announced`).
-/
import ReversePolish.Proofs.Appending

namespace ReversePolish

/-- The token has been traced. -/
def Machine.Traced (m : Machine) (token : String) : Prop :=
  ∃ stack, Event.traced stack token ∈ m.history

/-- The tokens announced have all been traced. -/
def Machine.Announced (announced : String → Prop) (m : Machine) : Prop :=
  ∀ token, announced token → ∃ stack, Event.traced stack token ∈ m.history

namespace Machine

variable {announced : String → Prop} {m m' : Machine} {added : History}

theorem Traced.grow {token : String} (h : m.Traced token)
    (hgrown : m'.history = m.history ++ added) : m'.Traced token := by
  obtain ⟨stack, hstack⟩ := h
  refine ⟨stack, ?_⟩
  rw [hgrown]
  exact Array.mem_append.mpr (Or.inl hstack)

theorem Announced.grow (h : m.Announced announced) (hgrown : m'.history = m.history ++ added) :
    m'.Announced announced :=
  fun token htoken => Traced.grow (h token htoken) hgrown

theorem Announced.tracing (h : m.Announced announced) (token : String) :
    (m.tracing token).Announced (announcing token announced) := by
  rintro t (rfl | ht)
  · exact ⟨m.stack, Array.mem_push_self⟩
  · obtain ⟨stack, hstack⟩ := h t ht
    exact ⟨stack, Array.mem_push.mpr (Or.inl hstack)⟩

end Machine

/-- All events of a history are harmless. -/
def History.All (harmless : Event → Prop) (h : History) : Prop := ∀ e ∈ h, harmless e

theorem History.All.of_grown {harmless : Event → Prop} {h h' added : History}
    (hall : h'.All harmless) (hgrown : h' = h ++ added) : h.All harmless := by
  intro e he
  apply hall
  rw [hgrown]
  exact Array.mem_append.mpr (Or.inl he)

namespace Routine

variable {α β : Type} {related : Machine → Machine → Prop} {harmless : Event → Prop}
variable {announced : String → Prop}

/-- From related machines, and as long as only harmless events happen in the
first run, both runs end alike and leave related machines. -/
def Follows (related : Machine → Machine → Prop) (harmless : Event → Prop)
    (announced : String → Prop) (r : Routine α) : Prop :=
  ∀ ⦃m second m' : Machine⦄ ⦃outcome : Except Interrupt α⦄, related m second →
    m.Announced announced → runOn r m = (outcome, m') → m'.history.All harmless →
    ∃ second', runOn r second = (outcome, second') ∧ related m' second'

/-- Running the same function on both machines. -/
theorem Follows.of_run {r : Routine α} {outcome : Machine → Except Interrupt α}
    {next : Machine → Machine} (hrun : ∀ m, runOn r m = (outcome m, next m))
    (houtcome : ∀ {m second}, related m second → outcome second = outcome m)
    (hnext : ∀ {m second}, related m second → related (next m) (next second)) :
    Follows related harmless announced r := by
  intro m second m' o hrelated _ hm _
  rw [hrun m] at hm
  obtain ⟨rfl, rfl⟩ := Prod.mk.inj hm
  exact ⟨next second, by rw [hrun second, houtcome hrelated], hnext hrelated⟩

theorem Follows.bind {r : Routine α} {next : α → Routine β} (happends : Appends r)
    (hnextAppends : ∀ a, Appends (next a)) (hr : Follows related harmless announced r)
    (hnext : ∀ a, Follows related harmless announced (next a)) :
    Follows related harmless announced (r >>= next) := by
  intro m second m' outcome hrelated hannounced hrun hharmless
  rcases hfirst : runOn r m with ⟨interrupt | a, m₁⟩
  · rw [runOn_bind_of_error hfirst] at hrun
    obtain ⟨rfl, rfl⟩ := Prod.mk.inj hrun
    obtain ⟨second', hsecond, hrelated'⟩ := hr hrelated hannounced hfirst hharmless
    exact ⟨second', runOn_bind_of_error hsecond next, hrelated'⟩
  · rw [runOn_bind_of_ok hfirst] at hrun
    -- what is harmless in the end was so after the first routine
    have hharmless₁ := hharmless.of_grown ((hnextAppends a).history_eq hrun)
    obtain ⟨second₁, hsecond, hrelated₁⟩ := hr hrelated hannounced hfirst hharmless₁
    have hannounced₁ := hannounced.grow (happends.history_eq hfirst)
    obtain ⟨second', hsecond', hrelated'⟩ := hnext a hrelated₁ hannounced₁ hrun hharmless
    exact ⟨second', by rw [runOn_bind_of_ok hsecond, hsecond'], hrelated'⟩

theorem Follows.recovering {r : Routine Unit} (happends : Appends r)
    (hrecoverAppends : ∀ cause, Appends (recover cause))
    (hr : Follows related harmless announced r)
    (hrecover : ∀ cause, Follows related harmless announced (recover cause)) :
    Follows related harmless announced (recovering r) := by
  intro m second m' outcome hrelated hannounced hrun hharmless
  rcases hfirst : runOn r m with ⟨first, m₁⟩
  by_cases hrefusal : ∃ cause, first = .error (.refusal cause)
  · obtain ⟨cause, rfl⟩ := hrefusal
    rw [runOn_recovering_of_refusal hfirst] at hrun
    have hharmless₁ := hharmless.of_grown ((hrecoverAppends cause).history_eq hrun)
    obtain ⟨second₁, hsecond, hrelated₁⟩ := hr hrelated hannounced hfirst hharmless₁
    have hannounced₁ := hannounced.grow (happends.history_eq hfirst)
    obtain ⟨second', hsecond', hrelated'⟩ := hrecover cause hrelated₁ hannounced₁ hrun hharmless
    exact ⟨second', by rw [runOn_recovering_of_refusal hsecond, hsecond'], hrelated'⟩
  · rw [runOn_recovering_of_ne hfirst hrefusal] at hrun
    obtain ⟨rfl, rfl⟩ := Prod.mk.inj hrun
    obtain ⟨second', hsecond, hrelated'⟩ := hr hrelated hannounced hfirst hharmless
    exact ⟨second', runOn_recovering_of_ne hsecond hrefusal, hrelated'⟩

/-- After a token has been traced it counts as announced. -/
theorem Follows.trace {token : String} {r : Routine Unit}
    (htracing : ∀ {m second}, related m second → related (m.tracing token) (second.tracing token))
    (hr : Follows related harmless (announcing token announced) r) :
    Follows related harmless announced (do trace token; r) := by
  intro m second m' outcome hrelated hannounced hrun hharmless
  rw [runOn_bind_of_ok (runOn_trace token m)] at hrun
  rw [runOn_bind_of_ok (runOn_trace token second)]
  exact hr (htracing hrelated) (hannounced.tracing token) hrun hharmless

/-! A relation is kept by the primitives that look beyond the top of the stack
if it is kept by what these do to the machines. -/

/-- Machines with the same host get the same answers. -/
theorem Follows.ask (message : String)
    (hhost : ∀ {m second}, related m second → second.host = m.host)
    (hasked : ∀ {m second}, related m second →
      related { m with history := m.history.push (.prompted message) }
        { second with history := second.history.push (.prompted message) })
    (hanswered : ∀ {m second} (f : Host → Host), related m second →
      related { m with host := f m.host } { second with host := f second.host }) :
    Follows related harmless announced (ask message) := by
  refine .of_run (runOn_ask message) ?_ ?_
  · intro m second h
    rw [hhost h]
  · intro m second h
    exact hanswered (fun host => { host with replies := host.replies.tail }) (hasked h)

theorem Follows.readClock (hhost : ∀ {m second}, related m second → second.host = m.host)
    (hread : ∀ {m second} (f : Host → Host), related m second →
      related { m with host := f m.host } { second with host := f second.host }) :
    Follows related harmless announced readClock := by
  refine .of_run runOn_readClock ?_ ?_
  · intro m second h
    rw [hhost h]
  · intro m second h
    exact hread (fun host => { host with clock := host.clock.tick }) h

/-- Machines that have the same value under a name. -/
theorem Follows.lookup {name : String} {otherwise : Routine Unit} (happends : Appends otherwise)
    (hfound : ∀ {m second}, related m second → m.Announced announced → m.history.All harmless →
      second.store.lookup? name = m.store.lookup? name)
    (hpush : ∀ {m second} (v : Value), related m second →
      related { m with stack := m.stack.push v } { second with stack := second.stack.push v })
    (h : Follows related harmless announced otherwise) :
    Follows related harmless announced (do
      match (← get).store.lookup? name with
      | some v => push v
      | none => otherwise) := by
  intro m second m' outcome hrelated hannounced hrun hharmless
  have hgrown := (Appends.lookup name happends).history_eq hrun
  have hsame := hfound hrelated hannounced (hharmless.of_grown hgrown)
  rw [runOn_bind_of_ok (runOn_get _)] at hrun ⊢
  rw [hsame]
  cases hlookup : m.store.lookup? name with
  | none =>
    rw [hlookup] at hrun
    exact h hrelated hannounced hrun hharmless
  | some v =>
    rw [hlookup] at hrun
    obtain ⟨rfl, rfl⟩ := Prod.mk.inj hrun
    exact ⟨_, rfl, hpush v hrelated⟩

/-- A list literal gathers what its body has left, on both machines. -/
theorem Follows.collect {evaluate : String → Routine Unit} {body : String} (token : String)
    (hentering : ∀ {m second}, related m second →
      related (m.entering token) (second.entering token))
    (hgather : ∀ {m second m₁ second₁}, related m second → related m₁ second₁ →
      related { m₁ with stack := m₁.stack.gather (m₁.stack.size - m.stack.size) }
        { second₁ with stack := second₁.stack.gather (second₁.stack.size - second.stack.size) })
    (hbody : Follows related harmless announced (evaluate body)) :
    Follows related harmless announced (collect evaluate token body) := by
  intro m second m' outcome h hannounced hrun hharmless
  have hannounced₁ : (m.entering token).Announced announced :=
    hannounced.grow Array.push_eq_append
  rcases hinner : runOn (evaluate body) (m.entering token) with ⟨interrupt | ⟨⟩, m₁⟩
  · rw [runOn_collect_of_error hinner] at hrun
    obtain ⟨rfl, rfl⟩ := Prod.mk.inj hrun
    obtain ⟨second', hsecond, h'⟩ := hbody (hentering h) hannounced₁ hinner hharmless
    exact ⟨second', runOn_collect_of_error hsecond, h'⟩
  · rw [runOn_collect_of_ok hinner] at hrun
    obtain ⟨rfl, rfl⟩ := Prod.mk.inj hrun
    obtain ⟨second₁, hsecond, h₁⟩ := hbody (hentering h) hannounced₁ hinner hharmless
    exact ⟨_, runOn_collect_of_ok hsecond, hgather h h₁⟩

/-- The histories from which two runs start do not matter: with nothing
announced beforehand, the machines are compared as if both runs had started
on an empty one. -/
theorem Follows.run_from {r : Routine α} {m second m' : Machine} {outcome : Except Interrupt α}
    (hr : Follows related harmless (fun _ => False) r) (happends : Appends r)
    (hrun : runOn r m = (outcome, m'))
    (hrelated : related (m.withHistory #[]) (second.withHistory #[]))
    (hharmless : (m.added m').All harmless) :
    ∃ second', runOn r second = (outcome, second') ∧
      related (m'.withHistory (m.added m')) (second'.withHistory (second.added second')) := by
  have hfirst := happends.run_over hrun #[]
  rw [Array.empty_append] at hfirst
  obtain ⟨fresh, hsecond, hrelated'⟩ := hr hrelated nofun hfirst hharmless
  have hadded : (second.withHistory #[]).added fresh = fresh.history :=
    Machine.added_eq Array.empty_append.symm
  have hover := happends.run_over hsecond second.history
  rw [hadded] at hover
  refine ⟨_, hover, ?_⟩
  have hviews : second.added (fresh.withHistory (second.history ++ fresh.history)) =
      fresh.history := Machine.added_eq rfl
  rw [hviews]
  exact hrelated'

end Routine

end ReversePolish
