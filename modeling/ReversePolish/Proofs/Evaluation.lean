/-
ReversePolish/Proofs/Evaluation.lean

Evaluation without a bound.  `Evaluates source m outcome m'` says that the
evaluation of a source on the machine `m` comes to an end, how it ends, and
which machine it leaves.

The bound of `evaluate` is only there to make it total.  A routine *refines*
another if the two agree wherever the first one is not exhausted; routines
that are put together in the same way from refining parts refine each other,
and so a larger bound refines a smaller one (`evaluate_refines`).  Hence a
run has at most one end (`Evaluates.unique`).
-/
import ReversePolish.Evaluate

namespace ReversePolish

namespace Routine

variable {α β : Type}

/-! ### Refinement -/

/-- The second routine does what the first does, unless the first is
exhausted. -/
def Refines (r r' : Routine α) : Prop :=
  ∀ m, (runOn r m).1 ≠ .error .exhausted → runOn r' m = runOn r m

theorem Refines.refl (r : Routine α) : Refines r r := fun _ _ => rfl

theorem Refines.trans {r r' r'' : Routine α} (h : Refines r r') (h' : Refines r' r'') :
    Refines r r'' := by
  intro m hm
  have hr := h m hm
  rw [← hr] at hm
  rw [h' m hm, hr]

theorem Refines.of_exhausted (r : Routine α) : Refines (throw .exhausted) r :=
  fun m hm => absurd (by rw [runOn_throw]) hm

theorem Refines.bind {r r' : Routine α} {next next' : α → Routine β} (h : Refines r r')
    (hnext : ∀ a, Refines (next a) (next' a)) : Refines (r >>= next) (r' >>= next') := by
  intro m hm
  rcases hrun : runOn r m with ⟨interrupt | a, m₁⟩
  · rw [runOn_bind_of_error hrun] at hm
    have hr : runOn r' m = (.error interrupt, m₁) := by
      rw [h m (by rw [hrun]; simpa using hm), hrun]
    rw [runOn_bind_of_error hrun, runOn_bind_of_error hr]
  · rw [runOn_bind_of_ok hrun] at hm
    have hr : runOn r' m = (.ok a, m₁) := by
      rw [h m (by rw [hrun]; nofun), hrun]
    rw [runOn_bind_of_ok hrun, runOn_bind_of_ok hr]
    exact hnext a m₁ hm

theorem Refines.forM {step step' : α → Routine Unit} (h : ∀ a, Refines (step a) (step' a))
    (items : List α) : Refines (items.forM step) (items.forM step') := by
  induction items with
  | nil => exact .refl _
  | cons a items ih => exact .bind (h a) fun _ => ih

theorem Refines.mapM {step step' : α → Routine β} (h : ∀ a, Refines (step a) (step' a))
    (items : List α) : Refines (items.mapM step) (items.mapM step') := by
  induction items with
  | nil =>
    rw [List.mapM_nil, List.mapM_nil]
    exact .refl _
  | cons a items ih =>
    rw [List.mapM_cons, List.mapM_cons]
    exact .bind (h a) fun _ => .bind ih fun _ => .refl _

theorem Refines.recovering {r r' : Routine Unit} (h : Refines r r') :
    Refines (recovering r) (recovering r') := by
  intro m hm
  simp only [ReversePolish.recovering, runOn_tryCatch] at hm ⊢
  rcases hrun : runOn r m with ⟨interrupt | a, m₁⟩
  · -- an exhausted routine stays exhausted under the handler
    have hne : interrupt ≠ .exhausted := by
      rintro rfl
      rw [hrun] at hm
      exact hm rfl
    have hr : runOn r' m = runOn r m := h m (by rw [hrun]; simpa using hne)
    rw [hr, hrun]
  · have hok : (runOn r m).1 ≠ .error .exhausted := by
      rw [hrun]
      intro hexhausted
      cases hexhausted
    rw [h m hok, hrun]

end Routine

open Routine

/-! ### A larger bound -/

section Bound

variable {inner outer : String → Routine Unit} {bound : Nat}

/-- A loop on a condition with one more iteration allowed. -/
theorem Control.whileTrue_refines (h : ∀ source, Refines (inner source) (outer source))
    (condition body : String) (bound : Nat) :
    Refines (whileTrue inner condition body bound)
      (whileTrue outer condition body (bound + 1)) := by
  induction bound with
  | zero => exact .of_exhausted _
  | succ bound ih =>
    refine .bind (h condition) fun _ => .bind (.refl _) fun holds => ?_
    -- the loop is left, or it goes round with one iteration fewer on both sides
    cases holds with
    | false => exact .refl _
    | true => exact .bind (h body) fun _ => ih

theorem Control.Binding.visit_refines (h : ∀ source, Refines (inner source) (outer source))
    (b : Binding) (item : Value) : Refines (b.visit inner item) (b.visit outer item) :=
  .bind (.refl _) fun _ => h b.code

theorem Control.run_refines (h : ∀ source, Refines (inner source) (outer source))
    (ctl : Control) : Refines (ctl.run inner bound) (ctl.run outer (bound + 1)) := by
  have hvisit := Binding.visit_refines h
  cases ctl with
  | evaluate => exact .bind (.refl _) fun code => h code
  | choose =>
    refine .bind (.refl _) fun condition => .bind (.refl _) fun otherwise => ?_
    exact .bind (.refl _) fun code => h _
  | loop =>
    refine .bind (.refl _) fun body => .bind (.refl _) fun condition => ?_
    exact whileTrue_refines h condition body bound
  | forEach => exact .bind (.refl _) fun b => .forM (hvisit b) b.items
  | mapEach =>
    refine .bind (.refl _) fun b => .bind (.mapM (fun item => ?_) b.items) fun _ => .refl _
    exact .bind (hvisit b item) fun _ => .refl _
  | filterEach =>
    refine .bind (.refl _) fun b => .bind (.mapM (fun item => ?_) b.items) fun _ => .refl _
    exact .bind (hvisit b item) fun _ => .refl _

theorem execute_refines (h : ∀ source, Refines (inner source) (outer source)) (name : String) :
    Refines (execute inner bound name) (execute outer (bound + 1) name) := by
  unfold execute
  cases Command.ofName? name with
  | none => exact .refl _
  | some command =>
    refine .bind (.refl _) fun _ => .recovering ?_
    cases command with
    | operator op => exact .refl _
    | effect eff => exact .refl _
    | control ctl => exact Control.run_refines h ctl

theorem evaluateToken_refines (h : ∀ source, Refines (inner source) (outer source))
    (token : String) :
    Refines (evaluateToken inner bound token) (evaluateToken outer (bound + 1) token) := by
  unfold evaluateToken
  cases Token.ofText token with
  | list body =>
    exact .bind (.refl _) fun _ => .bind (.refl _) fun _ => .bind (h body) fun _ => .refl _
  | word name =>
    refine .bind (.refl _) fun m => ?_
    cases m.store.lookup? name with
    | some v => exact .refl _
    | none =>
      dsimp only
      split
      · exact .refl _
      · exact execute_refines h name
  | number | misspelled | truth | text => exact .refl _

end Bound

/-- A run that is not exhausted is the same under every larger bound. -/
theorem evaluate_refines {bound larger : Nat} (h : bound ≤ larger) (source : String) :
    Refines (evaluate bound source) (evaluate larger source) := by
  have step : ∀ bound source, Refines (evaluate bound source) (evaluate (bound + 1) source) := by
    intro bound
    induction bound with
    | zero => exact fun source => .of_exhausted _
    | succ bound ih =>
      intro source
      refine .bind (.forM (fun token => ?_) _) fun _ => .refl _
      exact .bind (.refl _) fun _ => evaluateToken_refines ih token
  induction h with
  | refl => exact .refl _
  | step _ ih => exact ih.trans (step _ source)

/-! ### Evaluation -/

/-- The evaluation of a source on a machine ends with the given outcome and
leaves the given machine. -/
def Evaluates (source : String) (m : Machine) (outcome : Except Interrupt Unit) (m' : Machine) :
    Prop :=
  outcome ≠ .error .exhausted ∧ ∃ bound, runOn (evaluate bound source) m = (outcome, m')

/-- The same for one token. -/
def EvaluatesToken (token : String) (m : Machine) (outcome : Except Interrupt Unit)
    (m' : Machine) : Prop :=
  outcome ≠ .error .exhausted ∧
    ∃ bound, runOn (evaluateToken (evaluate bound) bound token) m = (outcome, m')

/-- The same for a command, called by its name. -/
def Executes (name : String) (m : Machine) (outcome : Except Interrupt Unit) (m' : Machine) :
    Prop :=
  outcome ≠ .error .exhausted ∧
    ∃ bound, runOn (execute (evaluate bound) bound name) m = (outcome, m')

/-- The bound was large enough. -/
def ended : Except Interrupt Unit → Bool
  | .error .exhausted => false
  | _ => true

theorem evaluates_of_ended {bound : Nat} {source : String} {m : Machine}
    (h : ended (runOn (evaluate bound source) m).1 = true) :
    Evaluates source m (runOn (evaluate bound source) m).1 (runOn (evaluate bound source) m).2 := by
  refine ⟨fun hexhausted => ?_, bound, rfl⟩
  rw [hexhausted] at h
  cases h

/-- Every bound that is large enough shows the same end. -/
theorem Evaluates.eventually {source : String} {m m' : Machine} {outcome : Except Interrupt Unit}
    (h : Evaluates source m outcome m') :
    ∃ bound, ∀ larger, bound ≤ larger → runOn (evaluate larger source) m = (outcome, m') := by
  obtain ⟨hne, bound, hrun⟩ := h
  refine ⟨bound, fun larger hle => ?_⟩
  -- what is not exhausted is refined by itself
  rw [evaluate_refines hle source m (by rw [hrun]; exact hne), hrun]

/-- A run has at most one end. -/
theorem Evaluates.unique {source : String} {m m₁ m₂ : Machine} {o₁ o₂ : Except Interrupt Unit}
    (h₁ : Evaluates source m o₁ m₁) (h₂ : Evaluates source m o₂ m₂) : o₁ = o₂ ∧ m₁ = m₂ := by
  obtain ⟨b₁, hb₁⟩ := h₁.eventually
  obtain ⟨b₂, hb₂⟩ := h₂.eventually
  have e₁ := hb₁ (max b₁ b₂) (Nat.le_max_left ..)
  have e₂ := hb₂ (max b₁ b₂) (Nat.le_max_right ..)
  exact Prod.mk.inj (e₁.symm.trans e₂)

end ReversePolish
