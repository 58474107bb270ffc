/-
ReversePolish/Proofs/Appending.lean

The history is written and never read.  A routine *appends* if it runs alike on
machines that differ in their histories alone, and adds the same events to
each of them.  Every assembled routine does, so every evaluation does.
-/
import ReversePolish.Proofs.Assembly
import ReversePolish.Proofs.History

namespace ReversePolish

/-- A machine with its history exchanged. -/
def Machine.withHistory (m : Machine) (h : History) : Machine := { m with history := h }

namespace Machine

@[simp] theorem withHistory_self (m : Machine) : m.withHistory m.history = m := rfl

@[simp] theorem withHistory_withHistory (m : Machine) (h h' : History) :
    (m.withHistory h).withHistory h' = m.withHistory h' := rfl

@[simp] theorem stack_withHistory (m : Machine) (h : History) : (m.withHistory h).stack = m.stack :=
  rfl

@[simp] theorem store_withHistory (m : Machine) (h : History) : (m.withHistory h).store = m.store :=
  rfl

@[simp] theorem host_withHistory (m : Machine) (h : History) : (m.withHistory h).host = m.host :=
  rfl

@[simp] theorem history_withHistory (m : Machine) (h : History) : (m.withHistory h).history = h :=
  rfl

end Machine

namespace Routine

variable {α β : Type} {announced : String → Prop}

/-- The routine runs alike over every history, and adds to it. -/
def Appends (r : Routine α) : Prop :=
  ∀ m : Machine, ∃ (outcome : Except Interrupt α) (m' : Machine) (added : History),
    ∀ h, runOn r (m.withHistory h) = (outcome, m'.withHistory (h ++ added))

/-! ### Using it -/

variable {r : Routine α} {m m' : Machine} {outcome : Except Interrupt α}

/-- A run over another history. -/
theorem Appends.run_over (happends : Appends r) (hrun : runOn r m = (outcome, m')) (h : History) :
    runOn r (m.withHistory h) = (outcome, m'.withHistory (h ++ m.added m')) := by
  obtain ⟨outcome', m'', added, hall⟩ := happends m
  have hm := hall m.history
  rw [Machine.withHistory_self, hrun] at hm
  obtain ⟨rfl, rfl⟩ := Prod.mk.inj hm
  have hadded : m.added (m''.withHistory (m.history ++ added)) = added := Machine.added_eq rfl
  rw [hadded, hall h, Machine.withHistory_withHistory]

/-- A run keeps the history it started on. -/
theorem Appends.history_eq (happends : Appends r) (hrun : runOn r m = (outcome, m')) :
    m'.history = m.history ++ m.added m' := by
  have hover := happends.run_over hrun m.history
  rw [Machine.withHistory_self, hrun] at hover
  exact congrArg Machine.history (Prod.mk.inj hover).2

/-! ### Building it -/

/-- A routine that adds nothing. -/
theorem Appends.of_silent
    (h : ∀ (m : Machine) (h : History),
      runOn r (m.withHistory h) = ((runOn r m).1, (runOn r m).2.withHistory h)) :
    Appends r := by
  intro m
  refine ⟨(runOn r m).1, (runOn r m).2, #[], fun h' => ?_⟩
  rw [h m h', Array.append_empty]

/-- A routine that adds one event. -/
theorem Appends.of_event {r : Routine Unit} (e : Machine → Event)
    (h : ∀ (m : Machine) (h : History),
      runOn r (m.withHistory h) = (.ok (), m.withHistory (h.push (e m)))) :
    Appends r := by
  intro m
  refine ⟨.ok (), m, #[e m], fun h' => ?_⟩
  rw [h m h', Array.push_eq_append]

theorem Appends.bind {next : α → Routine β} (hr : Appends r) (hnext : ∀ a, Appends (next a)) :
    Appends (r >>= next) := by
  intro m
  obtain ⟨outcome, m₁, added, hrun⟩ := hr m
  cases outcome with
  | error interrupt =>
    exact ⟨.error interrupt, m₁, added, fun h => runOn_bind_of_error (hrun h) next⟩
  | ok a =>
    obtain ⟨outcome, m₂, more, hmore⟩ := hnext a m₁
    refine ⟨outcome, m₂, added ++ more, fun h => ?_⟩
    rw [runOn_bind_of_ok (hrun h) next, hmore, Array.append_assoc]

theorem Appends.recovering {r : Routine Unit} (hr : Appends r)
    (hrecover : ∀ cause, Appends (recover cause)) : Appends (recovering r) := by
  intro m
  obtain ⟨outcome, m₁, added, hrun⟩ := hr m
  by_cases hrefusal : ∃ cause, outcome = .error (.refusal cause)
  · obtain ⟨cause, rfl⟩ := hrefusal
    obtain ⟨outcome, m₂, more, hmore⟩ := hrecover cause m₁
    refine ⟨outcome, m₂, added ++ more, fun h => ?_⟩
    rw [runOn_recovering_of_refusal (hrun h), hmore, Array.append_assoc]
  · exact ⟨outcome, m₁, added, fun h => runOn_recovering_of_ne (hrun h) hrefusal⟩

/-- Reading the machine, except for its history. -/
theorem Appends.get {f : Machine → Routine α} (hf : ∀ m h, f (m.withHistory h) = f m)
    (happends : ∀ m, Appends (f m)) : Appends (MonadState.get >>= f) := by
  intro m
  obtain ⟨outcome, m', added, hrun⟩ := happends m m
  refine ⟨outcome, m', added, fun h => ?_⟩
  rw [runOn_bind_of_ok (runOn_get _), hf, hrun]

theorem Appends.lookup (name : String) {otherwise : Routine Unit} (h : Appends otherwise) :
    Appends (do
      match (← MonadState.get).store.lookup? name with
      | some v => push v
      | none => otherwise) := by
  refine .get (fun _ _ => rfl) fun m => ?_
  cases m.store.lookup? name with
  | some v => exact .of_silent fun _ _ => rfl
  | none => exact h

theorem Assembled.appends (h : Assembled announced r) : Appends r := by
  -- a routine that reads the machine does not read the history of it
  induction h with
  | pure a => exact .of_silent fun _ _ => rfl
  | bind _ _ ihr ihnext => exact ihr.bind ihnext
  | throw interrupt => exact .of_silent fun _ _ => rfl
  | recovering _ _ ihr ihrecover => exact ihr.recovering ihrecover
  | record e => exact .of_event (fun _ => e) fun _ _ => rfl
  | push v => exact .of_silent fun _ _ => rfl
  | pop =>
    refine .get (fun _ _ => rfl) fun m => ?_
    cases m.stack.pop? with
    | none => exact .bind (.of_event (fun _ => .recovered underflowMessage) fun _ _ => rfl) fun _ =>
        .of_silent fun _ _ => rfl
    | some top => exact .of_silent fun _ _ => rfl
  | depth => exact .of_silent fun _ _ => rfl
  | define name v => exact .of_silent fun _ _ => rfl
  | free name => exact .of_silent fun _ _ => rfl
  | dumpStore => exact .of_event (fun m => .dumped m.store) fun _ _ => rfl
  | names => exact .of_silent fun _ _ => rfl
  | lookup name _ _ ih => exact .lookup name ih
  | ask message =>
    refine .bind (.of_event (fun _ => .prompted message) fun _ _ => rfl) fun _ => ?_
    refine .get (fun _ _ => rfl) fun m => ?_
    cases m.host.replies with
    | nil => exact .of_silent fun _ _ => rfl
    | cons reply later => exact .of_silent fun _ _ => rfl
  | readClock =>
    refine .get (fun _ _ => rfl) fun m => .bind (.of_silent fun _ _ => rfl) fun _ => ?_
    cases m.host.clock.reading.toValue with
    | ok v => exact .of_silent fun _ _ => rfl
    | error cause => exact .of_silent fun _ _ => rfl
  | collect token _ ih =>
    refine .get (fun _ _ => rfl) fun m => ?_
    refine .bind (.of_event (fun _ => .listEntered token m.stack.size) fun _ _ => rfl) fun _ => ?_
    refine .bind ih fun _ => .bind (.of_silent fun m h => ?_) fun _ => .of_silent fun _ _ => rfl
    rw [runOn_popAbove, runOn_popAbove]
    rfl
  | trace token _ ih =>
    exact .bind (.of_event (fun m => .traced m.stack token) fun _ _ => rfl) fun _ => ih
  | settle => exact .of_event (fun m => .settled m.stack) fun _ _ => rfl

end Routine

open Routine

/-- An evaluation neither reads nor shortens the history it starts on. -/
theorem evaluate_appends (bound : Nat) (source : String) : Appends (evaluate bound source) :=
  (evaluate_assembled bound source : Assembled (fun _ => False) _).appends

end ReversePolish
