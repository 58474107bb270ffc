/-
ReversePolish/Proofs/Ending.lean

Early ends.  For each way of putting routines together there is one lemma that
says where an early end of the whole comes from: a sequence ends early in one
of its parts, a traversal of a list in the turn of one element
(`Routine.Reaches`), and recovering from refusals keeps all other ends.
`Routine.EndsOnly` bounds the interrupts of a routine, and most primitive ones
have none.
-/
import ReversePolish.Proofs.Evaluation

namespace ReversePolish

/-- An interrupt that ends the whole run. -/
def Interrupt.Final : Interrupt → Prop
  | exit _ | fault _ => True
  | refusal _ | exhausted => False

namespace Routine

variable {α β : Type} {m m' : Machine} {interrupt : Interrupt}

/-! ### Early ends -/

/-- The routine ends early with the given interrupts only. -/
def EndsOnly (allowed : Interrupt → Prop) (r : Routine α) : Prop :=
  ∀ ⦃m m' : Machine⦄ ⦃interrupt : Interrupt⦄, runOn r m = (.error interrupt, m') →
    allowed interrupt

section EndsOnly

variable {allowed : Interrupt → Prop} {r : Routine α} {next : α → Routine β}

/-- A sequence ends early in its first part, or in its second one after a
normal end of the first. -/
theorem runOn_bind_eq_error :
    runOn (r >>= next) m = (.error interrupt, m') ↔
      runOn r m = (.error interrupt, m') ∨
        ∃ a m₁, runOn r m = (.ok a, m₁) ∧ runOn (next a) m₁ = (.error interrupt, m') := by
  rcases hrun : runOn r m with ⟨first | a, m₁⟩
  · rw [runOn_bind_of_error hrun]
    simp
  · rw [runOn_bind_of_ok hrun]
    constructor
    · exact fun h => Or.inr ⟨a, m₁, rfl, h⟩
    · rintro (h | ⟨_, _, h, hnext⟩)
      · cases h
      · cases h
        exact hnext

theorem EndsOnly.bind (hr : EndsOnly allowed r) (hnext : ∀ a, EndsOnly allowed (next a)) :
    EndsOnly allowed (r >>= next) := by
  intro m m' interrupt hrun
  rcases runOn_bind_eq_error.mp hrun with hfirst | ⟨a, m₁, -, hsecond⟩
  · exact hr hfirst
  · exact hnext a hsecond

/-- A routine that always has a result. -/
theorem EndsOnly.of_ok (result : Machine → α) (h : ∀ m, (runOn r m).1 = .ok (result m)) :
    EndsOnly allowed r := by
  intro m m' interrupt hrun
  have hok := h m
  rw [hrun] at hok
  cases hok

theorem endsOnly_pure (a : α) : EndsOnly allowed (pure a : Routine α) := .of_ok _ fun _ => rfl

theorem endsOnly_throw (h : allowed interrupt) :
    EndsOnly allowed (throw interrupt : Routine α) := by
  intro m m' raised hrun
  obtain rfl := Except.error.inj (Prod.mk.inj hrun).1
  exact h

theorem endsOnly_record (e : Event) : EndsOnly allowed (record e) := .of_ok _ fun _ => rfl

theorem endsOnly_push (v : Value) : EndsOnly allowed (push v) := .of_ok _ fun _ => rfl

theorem endsOnly_pushes (values : List Value) : EndsOnly allowed (values.forM push) := by
  induction values with
  | nil => exact endsOnly_pure ()
  | cons v values ih => exact .bind (endsOnly_push v) fun _ => ih

/-- Not even a pop from an empty stack ends early. -/
theorem endsOnly_pop : EndsOnly allowed pop := by
  intro m m' interrupt hrun
  rw [runOn_pop] at hrun
  split at hrun <;> cases hrun

theorem endsOnly_popText : EndsOnly allowed popText := endsOnly_pop.bind fun _ => endsOnly_pure _

theorem endsOnly_popTruth : EndsOnly allowed popTruth := endsOnly_pop.bind fun _ => endsOnly_pure _

theorem endsOnly_popList : EndsOnly allowed popList := endsOnly_pop.bind fun _ => endsOnly_pure _

theorem endsOnly_recover (cause : Refusal) : EndsOnly allowed (recover cause) :=
  .bind (endsOnly_pushes _) fun _ => endsOnly_record _

theorem EndsOnly.ne_error (hr : EndsOnly (fun _ => False) r) : runOn r m ≠ (.error interrupt, m') :=
  fun h => hr h

/-- After a routine that has a result. -/
theorem EndsOnly.bind_eq_error (hr : EndsOnly (fun _ => False) r) :
    runOn (r >>= next) m = (.error interrupt, m') ↔
      ∃ a m₁, runOn r m = (.ok a, m₁) ∧ runOn (next a) m₁ = (.error interrupt, m') := by
  rw [runOn_bind_eq_error, or_iff_right hr.ne_error]

/-- Before a routine that has a result. -/
theorem EndsOnly.eq_error_of_bind (hnext : ∀ a, EndsOnly (fun _ => False) (next a)) :
    runOn (r >>= next) m = (.error interrupt, m') ↔ runOn r m = (.error interrupt, m') := by
  rw [runOn_bind_eq_error, or_iff_left]
  rintro ⟨a, m₁, -, hsecond⟩
  exact hnext a hsecond

/-- The trace of a token does not end early. -/
theorem EndsOnly.visitToken {evaluate : String → Routine Unit} {bound : Nat} {token : String}
    (h : EndsOnly allowed (evaluateToken evaluate bound token)) :
    EndsOnly allowed (visitToken evaluate bound token) := by
  intro m m' interrupt hrun
  rw [runOn_visitToken] at hrun
  exact h hrun

end EndsOnly

/-- Only refusals are recovered from. -/
theorem runOn_recovering_eq_error {r : Routine Unit} (hfinal : interrupt.Final) :
    runOn (recovering r) m = (.error interrupt, m') ↔ runOn r m = (.error interrupt, m') := by
  rcases hrun : runOn r m with ⟨outcome, m₁⟩
  by_cases hrefusal : ∃ cause, outcome = .error (.refusal cause)
  · obtain ⟨cause, rfl⟩ := hrefusal
    rw [runOn_recovering_of_refusal hrun]
    constructor
    · exact fun h => absurd h (endsOnly_recover cause).ne_error
    · intro h
      obtain rfl := Except.error.inj (Prod.mk.inj h).1
      exact hfinal.elim
  · rw [runOn_recovering_of_ne hrun hrefusal]

/-! ### Traversals -/

/-- A traversal of a list comes to the element `a` when the machine is
`start`. -/
inductive Reaches (turn : α → Routine β) : List α → Machine → α → Machine → Prop where
  | here (a : α) (items : List α) (m : Machine) : Reaches turn (a :: items) m a m
  | later {first a : α} {items : List α} {m m₁ start : Machine} {b : β} :
      runOn (turn first) m = (.ok b, m₁) → Reaches turn items m₁ a start →
      Reaches turn (first :: items) m a start

section Reaches

variable {turn : α → Routine β}

theorem Reaches.mem {items : List α} {a : α} {start : Machine}
    (h : Reaches turn items m a start) : a ∈ items := by
  induction h with
  | here => exact List.mem_cons_self
  | later _ _ ih => exact List.mem_cons_of_mem _ ih

theorem exists_reaches_cons {property : α → Machine → Prop} {first : α} {items : List α} :
    (∃ a start, Reaches turn (first :: items) m a start ∧ property a start) ↔
      property first m ∨ ∃ b m₁, runOn (turn first) m = (.ok b, m₁) ∧
        ∃ a start, Reaches turn items m₁ a start ∧ property a start := by
  constructor
  · rintro ⟨a, start, hreaches, hproperty⟩
    cases hreaches with
    | here => exact Or.inl hproperty
    | later hfirst hreaches => exact Or.inr ⟨_, _, hfirst, a, start, hreaches, hproperty⟩
  · rintro (hproperty | ⟨b, m₁, hfirst, a, start, hreaches, hproperty⟩)
    · exact ⟨first, m, .here first items m, hproperty⟩
    · exact ⟨a, start, .later hfirst hreaches, hproperty⟩

/-- A traversal ends early in the turn of some element. -/
theorem runOn_mapM_eq_error {items : List α} :
    runOn (items.mapM turn) m = (.error interrupt, m') ↔
      ∃ a start, Reaches turn items m a start ∧ runOn (turn a) start = (.error interrupt, m') := by
  induction items generalizing m with
  | nil =>
    rw [List.mapM_nil]
    constructor
    · exact fun h => absurd h (endsOnly_pure _).ne_error
    · rintro ⟨a, start, hreaches, -⟩
      cases hreaches
  | cons first items ih =>
    rw [List.mapM_cons, exists_reaches_cons, runOn_bind_eq_error]
    -- the results are put together after the last turn
    have hrest : ∀ b m₁, runOn (do return b :: (← items.mapM turn)) m₁ = (.error interrupt, m') ↔
        ∃ a start, Reaches turn items m₁ a start ∧ runOn (turn a) start = (.error interrupt, m') :=
      fun b m₁ => (EndsOnly.eq_error_of_bind fun _ => endsOnly_pure _).trans ih
    simp only [hrest]

theorem runOn_forM_eq_error {turn : α → Routine Unit} {items : List α} :
    runOn (items.forM turn) m = (.error interrupt, m') ↔
      ∃ a start, Reaches turn items m a start ∧ runOn (turn a) start = (.error interrupt, m') := by
  induction items generalizing m with
  | nil =>
    constructor
    · exact fun h => absurd h (endsOnly_pure _).ne_error
    · rintro ⟨a, start, hreaches, -⟩
      cases hreaches
  | cons first items ih =>
    have hcons : (first :: items).forM turn = (do turn first; items.forM turn) := rfl
    rw [hcons, exists_reaches_cons, runOn_bind_eq_error]
    simp only [ih]

end Reaches

end Routine

end ReversePolish
