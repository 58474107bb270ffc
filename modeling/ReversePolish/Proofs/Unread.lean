/-
ReversePolish/Proofs/Unread.lean

A variable that is not read.  The value of a variable gets into a run in one
way only, through a token that is its name; binding, freeing and listing
variables go by the names alone.  So two runs from stores that agree except
for one value do the same as long as this token does not occur: they end
alike, with the same stack and the same effects, and with stores that agree
except for this variable again.

`Masked x m masked` compares the two machines, and every routine of an
evaluation keeps it (`Assembled.follows_unread`).  The logs may differ, since
binding and freeing variables shows all values there.
-/
import ReversePolish.Proofs.Attribution
import ReversePolish.Proofs.Store

namespace ReversePolish

/-! ### Stores that agree except for one variable -/

/-- The same names in the same order, with the same values except for `x`. -/
structure Store.AgreeExcept (x : String) (s s' : Store) : Prop where
  names : s'.names = s.names
  lookup : ∀ name, name ≠ x → s'.lookup? name = s.lookup? name

namespace Store.AgreeExcept

variable {x : String} {s s' : Store}

/-- Both stores bind a name, be it `x` or another. -/
theorem define (h : AgreeExcept x s s') (name : String) (v : Value) :
    AgreeExcept x (s.define name v) (s'.define name v) where
  names := by rw [names_define, names_define, h.names]
  lookup other hother := by rw [lookup?_define, lookup?_define, h.lookup other hother]

theorem free (h : AgreeExcept x s s') (name : String) :
    AgreeExcept x (s.free name) (s'.free name) where
  names := by rw [names_free, names_free, h.names]
  lookup other hother := by rw [lookup?_free, lookup?_free, h.lookup other hother]

end Store.AgreeExcept

/-! ### Machines that agree except for one variable -/

/-- The second machine differs in the value of `x` and in its log at most. -/
structure Masked (x : String) (m masked : Machine) : Prop where
  stack : masked.stack = m.stack
  store : m.store.AgreeExcept x masked.store
  host : masked.host = m.host
  output : masked.history.output = m.history.output
  prompts : masked.history.prompts = m.history.prompts
  sleeps : masked.history.sleeps = m.history.sleeps

/-- Not the trace of the token `x`. -/
def Event.NoRead (x : String) (e : Event) : Prop := ∀ stack, e ≠ .traced stack x

namespace Masked

variable {x : String} {m masked : Machine}

/-- The stacks are the same, so whatever is done to them is. -/
theorem withStack (h : Masked x m masked) (stack : Stack) :
    Masked x { m with stack } { masked with stack } :=
  { h with stack := rfl }

theorem push (h : Masked x m masked) (v : Value) :
    Masked x { m with stack := m.stack.push v } { masked with stack := masked.stack.push v } := by
  rw [h.stack]
  exact h.withStack _

/-- Both machines record an event that shows alike outside the log. -/
theorem record (h : Masked x m masked) {e e' : Event} (houtput : e'.output = e.output)
    (hprompt : e'.prompt? = e.prompt?) (hsleep : e'.sleep? = e.sleep?) :
    Masked x { m with history := m.history.push e }
      { masked with history := masked.history.push e' } where
  stack := h.stack
  store := h.store
  host := h.host
  output := by rw [History.output_push, History.output_push, h.output, houtput]
  prompts := by rw [History.prompts_push, History.prompts_push, h.prompts, hprompt]
  sleeps := by rw [History.sleeps_push, History.sleeps_push, h.sleeps, hsleep]

theorem withHost (h : Masked x m masked) (f : Host → Host) :
    Masked x { m with host := f m.host } { masked with host := f masked.host } :=
  { h with host := congrArg f h.host }

end Masked

namespace Routine

variable {α : Type} {announced : String → Prop} {x : String}

/-! ### The primitives -/

theorem follows_unread_pop : Follows (Masked x) (Event.NoRead x) announced pop := by
  intro m masked m' outcome h _ hrun _
  have hpop : masked.stack.pop? = m.stack.pop? := by rw [h.stack]
  rw [runOn_pop] at hrun ⊢
  rw [hpop]
  split at hrun
  · obtain ⟨rfl, rfl⟩ := Prod.mk.inj hrun
    exact ⟨_, rfl, h.withStack _⟩
  · obtain ⟨rfl, rfl⟩ := Prod.mk.inj hrun
    exact ⟨_, rfl, h.record rfl rfl rfl⟩

/-- A variable is looked up only after its name has been traced, so this one is
not `x`. -/
theorem ne_of_announced {name : String} {m : Machine} (hname : announced name)
    (hannounced : m.Announced announced) (hunread : m.history.All (Event.NoRead x)) :
    name ≠ x := by
  rintro rfl
  obtain ⟨stack, hstack⟩ := hannounced name hname
  exact hunread _ hstack stack rfl

/-! ### All routines -/

theorem Assembled.follows_unread {r : Routine α} (h : Assembled announced r) :
    Follows (Masked x) (Event.NoRead x) announced r := by
  -- only a lookup could tell the two stores apart
  induction h with
  | pure a => exact .of_run (runOn_pure a) (fun _ => rfl) id
  | bind hr hnext ihr ihnext => exact .bind hr.appends (fun a => (hnext a).appends) ihr ihnext
  | throw interrupt => exact .of_run (runOn_throw interrupt) (fun _ => rfl) id
  | recovering hr hrecover ihr ihrecover =>
    exact .recovering hr.appends (fun cause => (hrecover cause).appends) ihr ihrecover
  | record e => exact .of_run (fun _ => rfl) (fun _ => rfl) fun h => h.record rfl rfl rfl
  | push v => exact .of_run (fun _ => rfl) (fun _ => rfl) fun h => h.push v
  | pop => exact follows_unread_pop
  | depth =>
    refine .of_run (fun _ => rfl) (fun _ => rfl) ?_
    intro m masked h
    rw [h.stack]
    exact h.push _
  | define name v =>
    refine .of_run (fun _ => rfl) (fun _ => rfl) ?_
    intro m masked h
    exact { h with store := h.store.define name v }
  | free name =>
    refine .of_run (fun _ => rfl) (fun _ => rfl) ?_
    intro m masked h
    exact { h with store := h.store.free name }
  | dumpStore => exact .of_run (fun _ => rfl) (fun _ => rfl) fun h => h.record rfl rfl rfl
  | names =>
    refine .of_run (fun _ => rfl) (fun _ => rfl) ?_
    intro m masked h
    rw [h.store.names]
    exact h.push _
  | lookup name hname hotherwise ih =>
    refine .lookup hotherwise.appends ?_ (fun v h => h.push v) ih
    intro m masked h hannounced hunread
    exact h.store.lookup name (ne_of_announced hname hannounced hunread)
  | ask message => exact .ask message Masked.host (·.record rfl rfl rfl) fun f h => h.withHost f
  | readClock => exact .readClock Masked.host fun f h => h.withHost f
  | collect token _ ih =>
    refine .collect token (·.record rfl rfl rfl) ?_ ih
    intro m masked m₁ masked₁ h h₁
    -- equal stacks before and after the body, so one list is gathered in both
    rw [h.stack, h₁.stack]
    exact h₁.withStack _
  | trace token _ ih => exact .trace (fun h => h.record rfl rfl rfl) ih
  | settle => exact .of_run (fun _ => rfl) (fun _ => rfl) fun h => h.record rfl rfl rfl

end Routine

open Routine

/-! ### Evaluations -/

/-- A log without the line for a token has no read of it. -/
theorem History.noRead_of_log {h : History} {x : String}
    (hlog : Text.contains h.log (" <- " ++ x ++ "\n") = false) : h.All (Event.NoRead x) := by
  rintro _ he stack rfl
  exact not_traced_of_log hlog stack he

/-- **A variable that is never read does not matter.**  Let two machines differ
in the value of `x` alone.  If the log that the evaluation adds on the first
has no line for the token `x`, then on the second it ends in the same way under
the same bound, so that both come to an end or neither does.  The stack, the
output, the prompts and the sleeps are the same, and the stores agree again
except for `x`. -/
theorem evaluate_unread {bound : Nat} {source x : String} {m m' : Machine}
    {outcome : Except Interrupt Unit} (h : runOn (evaluate bound source) m = (outcome, m'))
    (hunread : Text.contains (m.added m').log (" <- " ++ x ++ "\n") = false) {store : Store}
    (hstore : m.store.AgreeExcept x store) :
    ∃ m'', runOn (evaluate bound source) { m with store } = (outcome, m'') ∧
      m''.stack = m'.stack ∧ m'.store.AgreeExcept x m''.store ∧ m''.host = m'.host ∧
      m''.history.output = m'.history.output ∧ m''.history.prompts = m'.history.prompts ∧
      m''.history.sleeps = m'.history.sleeps := by
  have happends := evaluate_appends bound source
  have hfollows : Follows (Masked x) (Event.NoRead x) (fun _ => False) (evaluate bound source) :=
    (evaluate_assembled bound source).follows_unread
  have hmasked : Masked x (m.withHistory #[]) ({ m with store }.withHistory #[]) :=
    ⟨rfl, hstore, rfl, rfl, rfl, rfl⟩
  obtain ⟨m'', hrun, hmasked'⟩ :=
    hfollows.run_from happends h hmasked (History.noRead_of_log hunread)
  have hgrown := happends.history_eq h
  have hgrown' := happends.history_eq hrun
  refine ⟨m'', hrun, hmasked'.stack, hmasked'.store, hmasked'.host, ?_, ?_, ?_⟩
  · rw [hgrown, hgrown', History.output_append, History.output_append]
    exact congrArg _ hmasked'.output
  · rw [hgrown, hgrown', History.prompts_append, History.prompts_append]
    exact congrArg _ hmasked'.prompts
  · rw [hgrown, hgrown', History.sleeps_append, History.sleeps_append]
    exact congrArg _ hmasked'.sleeps

/-- A variable whose value the log shows and whose name is listed, but which is
not read, while another one is bound and read. -/
theorem evaluate_unread_listed :
    let m : Machine := { Machine.bare with
      store := ⟨[("k", .truth true), ("y", .blank)], by decide⟩ }
    let store : Store := ⟨[("k", .text "other"), ("y", .blank)], by decide⟩
    let run := runOn (evaluate 2 "(b) (y) var [y] mem") m
    ended run.1 = true ∧ Text.contains (m.added run.2).log (" <- " ++ "k" ++ "\n") = false ∧
      m.store.AgreeExcept "k" store ∧
      ∃ m'', runOn (evaluate 2 "(b) (y) var [y] mem") { m with store } = (run.1, m'') ∧
        m''.stack = run.2.stack ∧ run.2.store.AgreeExcept "k" m''.store := by
  intro m store run
  have hended : ended run.1 = true := by decide +kernel
  have hunread : Text.contains (m.added run.2).log (" <- " ++ "k" ++ "\n") = false := by
    simp only [Text.contains, History.log, History.textOf_eq, String.toList_join]
    decide +kernel
  have hstore : m.store.AgreeExcept "k" store := by
    refine ⟨rfl, fun name hname => ?_⟩
    have hbeq : (name == "k") = false := beq_eq_false_iff_ne.mpr hname
    simp [m, store, Store.lookup?, List.lookup_cons, hbeq]
  have hrun : runOn (evaluate 2 "(b) (y) var [y] mem") m = (run.1, run.2) := (Prod.eta run).symm
  obtain ⟨m'', hrun'', hstack, hstore'', -⟩ := evaluate_unread hrun hunread hstore
  exact ⟨hended, hunread, hstore, m'', hrun'', hstack, hstore''⟩

end ReversePolish
