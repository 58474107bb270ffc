/-
ReversePolish/Proofs/Loops.lean

The loops, as sequences of evaluations.

A loop over a list is a *course* of rounds.  In each round an element is bound
to the name, the code is evaluated, and the machine that it leaves is where the
next round starts; the commands that collect results take one value in
between.  A loop on a condition is a number of *turns*, in each of which the
condition leaves a true value and the body is evaluated, and then a condition
that leaves a false one.

Both are first read off the routines for any evaluator at all
(`Control.Binding.mapM_eq_ok`, `Control.whileTrue_eq_ok`): the evaluator is
called for the code that was taken from the stack at the start, on the machines
of the course or of the turns, and for nothing else.  What is particular to
`evaluate` is its bound, and one bound that is large enough for each of the
evaluations is large enough for the loop.

The main results are `executes_each`, for the loops over a list, and
`executes_while`, the rule for a loop on a condition.
-/
import ReversePolish.Proofs.Exchange
import ReversePolish.Proofs.Recovery
import ReversePolish.Proofs.Store

namespace ReversePolish

open Routine

/-! ### Normal ends -/

namespace Routine

variable {α β : Type} {m m' : Machine}

/-- The routine ends normally on `m` and leaves `m'`. -/
def Finishes (r : Routine Unit) (m m' : Machine) : Prop := runOn r m = (.ok (), m')

theorem runOn_bind_eq_ok {r : Routine α} {next : α → Routine β} {b : β} :
    runOn (r >>= next) m = (.ok b, m') ↔
      ∃ a m₁, runOn r m = (.ok a, m₁) ∧ runOn (next a) m₁ = (.ok b, m') := by
  constructor
  · intro h
    rcases hfirst : runOn r m with ⟨interrupt | a, m₁⟩
    · rw [runOn_bind_of_error hfirst] at h
      cases h
    · rw [runOn_bind_of_ok hfirst] at h
      exact ⟨a, m₁, rfl, h⟩
  · rintro ⟨a, m₁, hfirst, hnext⟩
    rw [runOn_bind_of_ok hfirst, hnext]

/-- A traversal for its effects is one that forgets its results. -/
theorem runOn_forM_eq_ok {turn : α → Routine Unit} {items : List α} :
    runOn (items.forM turn) m = (.ok (), m') ↔
      ∃ results, runOn (items.mapM turn) m = (.ok results, m') := by
  induction items generalizing m with
  | nil =>
    rw [List.mapM_nil]
    constructor
    · intro h
      obtain rfl : m = m' := (Prod.mk.inj h).2
      exact ⟨[], rfl⟩
    · rintro ⟨results, h⟩
      obtain rfl : m = m' := (Prod.mk.inj h).2
      rfl
  | cons a items ih =>
    have hcons : (a :: items).forM turn = (do turn a; items.forM turn) := rfl
    rw [hcons, List.mapM_cons, runOn_bind_eq_ok]
    simp only [runOn_bind_eq_ok, ih]
    constructor
    · rintro ⟨u, m₁, hfirst, results, hrest⟩
      exact ⟨u :: results, u, m₁, hfirst, results, m', hrest, rfl⟩
    · rintro ⟨_, u, m₁, hfirst, results, m₂, hrest, hlast⟩
      obtain rfl : m₂ = m' := (Prod.mk.inj hlast).2
      exact ⟨u, m₁, hfirst, results, hrest⟩

/-- Where nothing is refused there is nothing to recover from. -/
theorem runOn_recovering_of_unrefused {r : Routine Unit} (h : EndsOnly Interrupt.Unrefused r)
    (m : Machine) : runOn (recovering r) m = runOn r m := by
  rcases hrun : runOn r m with ⟨outcome, m'⟩
  refine runOn_recovering_of_ne hrun ?_
  rintro ⟨cause, rfl⟩
  exact h hrun cause rfl

end Routine

/-- The evaluation of a source ends normally on `m` and leaves `m'`. -/
def Completes (source : String) (m m' : Machine) : Prop := Evaluates source m (.ok ()) m'

theorem completes_of_finishes {bound : Nat} {source : String} {m m' : Machine}
    (h : Finishes (evaluate bound source) m m') : Completes source m m' :=
  ⟨nofun, bound, h⟩

theorem Completes.eventually {source : String} {m m' : Machine} (h : Completes source m m') :
    ∃ bound, ∀ larger, bound ≤ larger → Finishes (evaluate larger source) m m' :=
  Evaluates.eventually h

/-- A control command ends normally under some bound.  It refuses nothing of
its own, and its code has recovered from its refusals. -/
theorem executes_control_iff (ctl : Control) {m m' : Machine} :
    Executes ctl.name m (.ok ()) m' ↔
      ∃ bound, runOn (ctl.run (evaluate bound) bound) (m.noting ctl.name) = (.ok (), m') := by
  have hrun : ∀ bound, runOn (execute (evaluate bound) bound ctl.name) m =
      runOn (ctl.run (evaluate bound) bound) (m.noting ctl.name) := by
    intro bound
    have hunrefused := Control.run_endsOnly (fun _ => nofun) (evaluate_unrefused bound) ctl bound
    exact (runOn_execute_name (evaluate bound) bound (.control ctl) m).trans
      (runOn_recovering_of_unrefused hunrefused _)
  simp only [Executes, hrun]
  exact and_iff_right nofun

/-! ### Rounds over a list -/

/-- A machine with a name bound to a value. -/
def Machine.binding (m : Machine) (name : String) (v : Value) : Machine :=
  { m with store := m.store.define name v }

/-- A machine without the top value of its stack.  That there is none is
reported. -/
def Machine.popped (m : Machine) : Machine :=
  { m with stack := m.stack.rest, history := m.history ++ m.stack.popReport }

theorem runOn_popTruth (m : Machine) :
    runOn popTruth m = (.ok m.stack.top.toTruth, m.popped) := by
  rw [popTruth, runOn_bind_of_ok (runOn_pop_top m)]
  rfl

/-- One round of a loop over a list. -/
structure Round where
  /-- The element that is bound. -/
  item : Value
  /-- The machine on which the code is evaluated. -/
  start : Machine
  /-- The machine that the code leaves. -/
  left : Machine

/-- The value that is taken after a round. -/
def Round.value (r : Round) : Value := r.left.stack.top

/-- A course of rounds from `m` to `last`.  Each element is bound to the name on
the machine where the round before has got to, and from the machine that the
body leaves the loop goes `onward`. -/
inductive Course (body : Machine → Machine → Prop) (name : String)
    (onward : Machine → Machine) : Machine → List Round → Machine → Prop where
  | done (m : Machine) : Course body name onward m [] m
  | next {m left last : Machine} {item : Value} {rounds : List Round} :
      body (m.binding name item) left → Course body name onward (onward left) rounds last →
      Course body name onward m (⟨item, m.binding name item, left⟩ :: rounds) last

namespace Course

variable {body : Machine → Machine → Prop} {name code : String} {onward : Machine → Machine}
  {m last : Machine} {rounds : List Round}

theorem mono {body' : Machine → Machine → Prop} (h : Course body name onward m rounds last)
    (hbody : ∀ m m', body m m' → body' m m') : Course body' name onward m rounds last := by
  induction h with
  | done m => exact .done m
  | next hfirst _ ih => exact .next (hbody _ _ hfirst) ih

/-- One bound is large enough for all rounds. -/
theorem eventually (h : Course (Completes code) name onward m rounds last) :
    ∃ bound, ∀ larger, bound ≤ larger →
      Course (Finishes (evaluate larger code)) name onward m rounds last := by
  induction h with
  | done m => exact ⟨0, fun _ _ => .done m⟩
  | next hfirst _ ih =>
    obtain ⟨b₁, h₁⟩ := Completes.eventually hfirst
    obtain ⟨b₂, h₂⟩ := ih
    refine ⟨max b₁ b₂, fun larger hle => ?_⟩
    exact .next (h₁ larger (by omega)) (h₂ larger (by omega))

theorem exists_bound_iff :
    (∃ bound, Course (Finishes (evaluate bound code)) name onward m rounds last) ↔
      Course (Completes code) name onward m rounds last := by
  constructor
  · rintro ⟨bound, h⟩
    exact h.mono fun _ _ => completes_of_finishes
  · intro h
    obtain ⟨bound, hbound⟩ := h.eventually
    exact ⟨bound, hbound bound (Nat.le_refl bound)⟩

/-- The first round, and the course after it. -/
theorem exists_cons_iff {item : Value} {items : List Value} {property : List Round → Prop} :
    (∃ rounds, Course body name onward m rounds last ∧ rounds.map Round.item = item :: items ∧
      property rounds) ↔
      ∃ left, body (m.binding name item) left ∧
        ∃ rounds, Course body name onward (onward left) rounds last ∧
          rounds.map Round.item = items ∧
          property (⟨item, m.binding name item, left⟩ :: rounds) := by
  constructor
  · rintro ⟨rounds, hcourse, hitems, hproperty⟩
    cases hcourse with
    | done => cases hitems
    | next hfirst hrest =>
      obtain ⟨rfl, hlater⟩ := List.cons.inj hitems
      exact ⟨_, hfirst, _, hrest, hlater, hproperty⟩
  · rintro ⟨left, hfirst, rounds, hrest, hitems, hproperty⟩
    exact ⟨_, .next hfirst hrest, congrArg (item :: ·) hitems, hproperty⟩

/-- In each round the name is bound to the element when the code begins. -/
theorem lookup_start (h : Course body name onward m rounds last) :
    ∀ r ∈ rounds, r.start.store.lookup? name = some r.item := by
  induction h with
  | done => exact fun r hr => absurd hr List.not_mem_nil
  | @next m left last item rounds _ _ ih =>
    intro r hr
    rcases List.mem_cons.mp hr with rfl | hr
    · show (m.store.define name item).lookup? name = some item
      rw [Store.lookup?_define, if_pos rfl]
    · exact ih r hr

/-- A course ends where its last round gets to. -/
theorem eq_onward (h : Course body name onward m rounds last) :
    ∀ r ∈ rounds.getLast?, last = onward r.left := by
  induction h with
  | done => exact fun r hr => nomatch hr
  | @next m left last item rounds hfirst hrest ih =>
    intro r hr
    cases hrest with
    | done =>
      obtain rfl := Option.some.inj hr
      rfl
    | next hsecond hlater =>
      rw [List.getLast?_cons_cons] at hr
      exact ih r hr

end Course

/-! ### Loops over a list -/

namespace Control

section Traversal

variable {α : Type} {evaluate : String → Routine Unit} {b : Binding} {take : Value → Routine α}
  {onward : Machine → Machine} {m last : Machine}

/-- One turn of a loop over a list, for any evaluator: the code is evaluated
once, with the element bound to the name. -/
theorem Binding.visit_eq_ok (result : Round → α) {item : Value} {a : α} {m₁ : Machine}
    (htake : ∀ start left, runOn (take item) left =
      (.ok (result ⟨item, start, left⟩), onward left)) :
    runOn (do b.visit evaluate item; take item) m = (.ok a, m₁) ↔
      ∃ left, Finishes (evaluate b.code) (m.binding b.name item) left ∧
        a = result ⟨item, m.binding b.name item, left⟩ ∧ m₁ = onward left := by
  have hvisit : runOn (b.visit evaluate item) m =
      runOn (evaluate b.code) (m.binding b.name item) := rfl
  rw [runOn_bind_eq_ok, hvisit]
  constructor
  · rintro ⟨_, left, hcode, htaken⟩
    rw [htake (m.binding b.name item)] at htaken
    obtain ⟨hresult, honward⟩ := Prod.mk.inj htaken
    exact ⟨left, hcode, (Except.ok.inj hresult).symm, honward.symm⟩
  · rintro ⟨left, hcode, rfl, rfl⟩
    exact ⟨(), left, hcode, htake _ left⟩

/-- A traversal that takes a result after each element is a course with one
round for each element, and with nothing else. -/
theorem Binding.mapM_eq_ok (result : Round → α) {items : List Value} {results : List α}
    (htake : ∀ item start left, runOn (take item) left =
      (.ok (result ⟨item, start, left⟩), onward left)) :
    runOn (items.mapM fun item => do b.visit evaluate item; take item) m =
        (.ok results, last) ↔
      ∃ rounds, Course (Finishes (evaluate b.code)) b.name onward m rounds last ∧
        rounds.map Round.item = items ∧ results = rounds.map result := by
  induction items generalizing m last results with
  | nil =>
    rw [List.mapM_nil, runOn_pure]
    constructor
    · intro h
      obtain ⟨hresults, rfl⟩ := Prod.mk.inj h
      exact ⟨[], .done m, rfl, (Except.ok.inj hresults).symm⟩
    · rintro ⟨rounds, hcourse, hitems, rfl⟩
      obtain rfl := List.map_eq_nil_iff.mp hitems
      cases hcourse
      rfl
  | cons item items ih =>
    rw [List.mapM_cons, runOn_bind_eq_ok, Course.exists_cons_iff]
    simp only [Binding.visit_eq_ok result (htake item), runOn_bind_eq_ok, ih]
    constructor
    · rintro ⟨a, _, ⟨left, hcode, rfl, rfl⟩, _, _, ⟨rounds, hcourse, hitems, rfl⟩, hlast⟩
      obtain ⟨hresults, rfl⟩ := Prod.mk.inj hlast
      exact ⟨left, hcode, rounds, hcourse, hitems, (Except.ok.inj hresults).symm⟩
    · rintro ⟨left, hcode, rounds, hcourse, hitems, rfl⟩
      exact ⟨_, _, ⟨left, hcode, rfl, rfl⟩, _, _, ⟨rounds, hcourse, hitems, rfl⟩, rfl⟩

end Traversal

section Commands

variable {evaluate : String → Routine Unit} {x y z : Value} {m m' : Machine}

/-- The operands of a loop over a list, when they are there. -/
theorem runOn_popBinding (x y z : Value) (m : Machine) :
    runOn popBinding (m.holding [x, y, z]) = (.ok ⟨x.toList, y.toText, z.toText⟩, m) := rfl

/-- `for` takes nothing but its operands and gives nothing. -/
theorem runForEach_eq_ok :
    runOn (runForEach evaluate) (m.holding [x, y, z]) = (.ok (), m') ↔
      ∃ rounds last, Course (Finishes (evaluate z.toText)) y.toText id m rounds last ∧
        rounds.map Round.item = x.toList ∧ m' = last.holding [] := by
  have hturn : ∀ b : Binding, b.visit evaluate = fun item => (do b.visit evaluate item; pure ()) :=
    fun b => funext fun item => (bind_pure_unit).symm
  have hpure : ∀ left : Machine, runOn (pure ()) left = (.ok (), id left) := fun _ => rfl
  rw [runForEach, runOn_bind_of_ok (runOn_popBinding x y z m), runOn_forM_eq_ok, hturn]
  constructor
  · rintro ⟨results, hresults⟩
    obtain ⟨rounds, hcourse, hitems, -⟩ :=
      (Binding.mapM_eq_ok (fun _ => ()) fun _ _ => hpure).mp hresults
    exact ⟨rounds, m', hcourse, hitems, rfl⟩
  · rintro ⟨rounds, last, hcourse, hitems, rfl⟩
    exact ⟨_, (Binding.mapM_eq_ok (fun _ => ()) fun _ _ => hpure).mpr
      ⟨rounds, hcourse, hitems, rfl⟩⟩

/-- A loop that takes a result after each round and gives a list made of
them. -/
theorem mapM_push_eq_ok {α : Type} {take : Value → Routine α} {onward : Machine → Machine}
    (result : Round → α) (made : List α → List Value)
    (htake : ∀ item start left, runOn (take item) left =
      (.ok (result ⟨item, start, left⟩), onward left)) :
    runOn (do
        let b ← popBinding
        let results ← b.items.mapM fun item => do
          b.visit evaluate item
          take item
        push (.list (made results))) (m.holding [x, y, z]) = (.ok (), m') ↔
      ∃ rounds last, Course (Finishes (evaluate z.toText)) y.toText onward m rounds last ∧
        rounds.map Round.item = x.toList ∧
        m' = last.holding [.list (made (rounds.map result))] := by
  rw [runOn_bind_of_ok (runOn_popBinding x y z m), runOn_bind_eq_ok]
  constructor
  · rintro ⟨results, last, hresults, hpush⟩
    obtain ⟨rounds, hcourse, hitems, rfl⟩ := (Binding.mapM_eq_ok result htake).mp hresults
    exact ⟨rounds, last, hcourse, hitems, (Prod.mk.inj hpush).2.symm⟩
  · rintro ⟨rounds, last, hcourse, hitems, rfl⟩
    exact ⟨_, last, (Binding.mapM_eq_ok result htake).mpr ⟨rounds, hcourse, hitems, rfl⟩, rfl⟩

/-- `map` takes a value after each round and gives the list of them. -/
theorem runMapEach_eq_ok :
    runOn (runMapEach evaluate) (m.holding [x, y, z]) = (.ok (), m') ↔
      ∃ rounds last, Course (Finishes (evaluate z.toText)) y.toText Machine.popped m rounds last ∧
        rounds.map Round.item = x.toList ∧
        m' = last.holding [.list (rounds.map Round.value)] :=
  mapM_push_eq_ok Round.value id fun _ _ left => runOn_pop_top left

/-- `filter` takes a value after each round and gives the list of those
elements for which it was true. -/
theorem runFilterEach_eq_ok :
    runOn (runFilterEach evaluate) (m.holding [x, y, z]) = (.ok (), m') ↔
      ∃ rounds last, Course (Finishes (evaluate z.toText)) y.toText Machine.popped m rounds last ∧
        rounds.map Round.item = x.toList ∧
        m' = last.holding [.list ((rounds.filter (·.value.toTruth)).map Round.item)] := by
  have htake : ∀ (item : Value) (left : Machine), runOn (do return (item, ← popTruth)) left =
      (.ok (item, left.stack.top.toTruth), left.popped) := by
    intro item left
    rw [runOn_bind_of_ok (runOn_popTruth left)]
    rfl
  have hkept : ∀ rounds : List Round,
      ((rounds.map fun r => (r.item, r.value.toTruth)).filter Prod.snd).map Prod.fst =
        (rounds.filter (·.value.toTruth)).map Round.item := by
    intro rounds
    rw [List.filter_map, List.map_map]
    rfl
  simp only [← hkept]
  exact mapM_push_eq_ok (fun r => (r.item, r.value.toTruth))
    (fun tested => (tested.filter Prod.snd).map Prod.fst) fun item _ left => htake item left

end Commands

end Control

/-- A loop over a list from `m` to `last`: its code is evaluated in one round
for each of the items, and never else. -/
structure Folds (items : List Value) (name code : String) (onward : Machine → Machine)
    (m : Machine) (rounds : List Round) (last : Machine) : Prop where
  course : Course (Completes code) name onward m rounds last
  items : rounds.map Round.item = items
  /-- The name is bound to the element when the code begins. -/
  bound : ∀ r ∈ rounds, r.start.store.lookup? name = some r.item
  /-- The last element stays bound if its evaluation has left it so. -/
  final : ∀ r ∈ rounds.getLast?,
    r.left.store.lookup? name = r.start.store.lookup? name → last.store.lookup? name = some r.item

theorem Course.folds {name code : String} {onward : Machine → Machine} {m last : Machine}
    {rounds : List Round} (h : Course (Completes code) name onward m rounds last)
    (honward : ∀ m, (onward m).store = m.store) :
    Folds (rounds.map Round.item) name code onward m rounds last where
  course := h
  items := rfl
  bound := h.lookup_start
  final := by
    intro r hr hleft
    have hstart := h.lookup_start r (List.mem_of_getLast? hr)
    rw [h.eq_onward r hr, honward, hleft, hstart]

/-- A command that is a course under each bound is one without a bound. -/
theorem executes_each_iff (ctl : Control) {onward : Machine → Machine}
    {given : List Round → List Value} {x y z : Value} {m m' : Machine}
    (honward : ∀ m, (onward m).store = m.store)
    (hrun : ∀ bound, runOn (ctl.run (evaluate bound) bound)
        ((m.noting ctl.name).holding [x, y, z]) = (.ok (), m') ↔
      ∃ rounds last, Course (Finishes (evaluate bound z.toText)) y.toText onward
          (m.noting ctl.name) rounds last ∧
        rounds.map Round.item = x.toList ∧ m' = last.holding (given rounds)) :
    Executes ctl.name (m.holding [x, y, z]) (.ok ()) m' ↔
      ∃ rounds last, Folds x.toList y.toText z.toText onward (m.noting ctl.name) rounds last ∧
        m' = last.holding (given rounds) := by
  have hnoted : (m.holding [x, y, z]).noting ctl.name = (m.noting ctl.name).holding [x, y, z] := rfl
  simp only [executes_control_iff, hnoted, hrun]
  constructor
  · rintro ⟨bound, rounds, last, hcourse, hitems, hlast⟩
    have hfolds := (Course.exists_bound_iff.mp ⟨bound, hcourse⟩).folds honward
    exact ⟨rounds, last, hitems ▸ hfolds, hlast⟩
  · rintro ⟨rounds, last, hfolds, hlast⟩
    obtain ⟨bound, hcourse⟩ := Course.exists_bound_iff.mpr hfolds.course
    exact ⟨bound, rounds, last, hcourse, hfolds.items, hlast⟩

/-- **The loops over a list are folds.**  A loop whose source, name and code are
on the stack ends normally exactly if there is a course with one round for each
element of the source.  The code is evaluated with the element bound to the
name, on the machine that the round before has left, whatever the code does to
the stack, to the variables or to the name itself.  `for` goes straight on and
gives nothing, `map` takes a value after each round and gives the list of them,
and `filter` takes a value after each round and gives the list of those
elements after which it was true. -/
theorem executes_each (x y z : Value) (m m' : Machine) :
    (Executes "for" (m.holding [x, y, z]) (.ok ()) m' ↔
      ∃ rounds, Folds x.toList y.toText z.toText id (m.noting "for") rounds m') ∧
    (Executes "map" (m.holding [x, y, z]) (.ok ()) m' ↔
      ∃ rounds last,
        Folds x.toList y.toText z.toText Machine.popped (m.noting "map") rounds last ∧
        m' = last.holding [.list (rounds.map Round.value)]) ∧
    (Executes "filter" (m.holding [x, y, z]) (.ok ()) m' ↔
      ∃ rounds last,
        Folds x.toList y.toText z.toText Machine.popped (m.noting "filter") rounds last ∧
        m' = last.holding [.list ((rounds.filter (·.value.toTruth)).map Round.item)]) := by
  have hpopped : ∀ m : Machine, m.popped.store = m.store := fun _ => rfl
  refine ⟨?_, ?_, ?_⟩
  · have hfor : Executes Control.forEach.name (m.holding [x, y, z]) (.ok ()) m' ↔ _ :=
      executes_each_iff .forEach (fun _ => rfl) fun _ => Control.runForEach_eq_ok
    refine hfor.trans ⟨?_, fun ⟨rounds, hfolds⟩ => ⟨rounds, m', hfolds, rfl⟩⟩
    rintro ⟨rounds, last, hfolds, rfl⟩
    exact ⟨rounds, hfolds⟩
  · exact executes_each_iff .mapEach hpopped fun _ => Control.runMapEach_eq_ok
  · exact executes_each_iff .filterEach hpopped fun _ => Control.runFilterEach_eq_ok

/-- Code that frees its own variable and empties the stack: the values of `map`
are missing, and the variable is unbound at the end. -/
theorem executes_each_freed :
    let m : Machine := { Machine.bare with
      stack := .ofList [.truth true], store := .ofList [("v", .blank)] }
    let source : Value := .list [.text "a", .text "b"]
    let name : Value := .text "v"
    let code : Value := .text "pop (v) free"
    let m' := (runOn (execute (evaluate 2) 2 "map") (m.holding [source, name, code])).2
    Executes "map" (m.holding [source, name, code]) (.ok ()) m' ∧
      m'.stack.display = "Stack[ [() ()] ]" ∧ m'.store.names = [] ∧
      ∃ rounds last,
        Folds source.toList "v" "pop (v) free" Machine.popped (m.noting "map") rounds last ∧
        m' = last.holding [.list (rounds.map Round.value)] := by
  intro m source name code m'
  have hends : Executes "map" (m.holding [source, name, code]) (.ok ()) m' :=
    ⟨nofun, 2, runOn_eq_ok (by decide +kernel)⟩
  refine ⟨hends, by decide +kernel, by decide +kernel, ?_⟩
  exact (executes_each source name code m m').2.1.mp hends

/-! ### Loops on a condition -/

/-- The condition is evaluated on `m` and leaves a value with the truth value
`holds` on top, which is taken. -/
def Tests (condition : Machine → Machine → Prop) (holds : Bool) (m m' : Machine) : Prop :=
  ∃ left, condition m left ∧ left.stack.top.toTruth = holds ∧ m' = left.popped

/-- A number of turns, in each of which the condition holds and then the body is
evaluated. -/
inductive Turns (condition body : Machine → Machine → Prop) : Nat → Machine → Machine → Prop where
  | none (m : Machine) : Turns condition body 0 m m
  | more {n : Nat} {m tested next last : Machine} :
      Tests condition true m tested → body tested next → Turns condition body n next last →
      Turns condition body (n + 1) m last

namespace Tests

variable {condition condition' : Machine → Machine → Prop} {holds : Bool} {m m' : Machine}

theorem mono (h : Tests condition holds m m') (himp : ∀ m m', condition m m' → condition' m m') :
    Tests condition' holds m m' := by
  obtain ⟨left, hcondition, htruth, hpopped⟩ := h
  exact ⟨left, himp _ _ hcondition, htruth, hpopped⟩

theorem eventually {source : String} (h : Tests (Completes source) holds m m') :
    ∃ bound, ∀ larger, bound ≤ larger → Tests (Finishes (evaluate larger source)) holds m m' := by
  obtain ⟨left, hcondition, htruth, hpopped⟩ := h
  obtain ⟨bound, hbound⟩ := hcondition.eventually
  exact ⟨bound, fun larger hle => ⟨left, hbound larger hle, htruth, hpopped⟩⟩

end Tests

theorem runOn_test_eq_ok {r : Routine Unit} {holds : Bool} {m m' : Machine} :
    runOn (do r; popTruth) m = (.ok holds, m') ↔ Tests (Finishes r) holds m m' := by
  simp only [runOn_bind_eq_ok, runOn_popTruth]
  constructor
  · rintro ⟨_, left, hcondition, htaken⟩
    obtain ⟨hholds, hpopped⟩ := Prod.mk.inj htaken
    exact ⟨left, hcondition, Except.ok.inj hholds, hpopped.symm⟩
  · rintro ⟨left, hcondition, rfl, rfl⟩
    exact ⟨(), left, hcondition, rfl⟩

namespace Turns

variable {condition body : Machine → Machine → Prop} {n : Nat} {m last : Machine}

theorem mono {condition' body' : Machine → Machine → Prop} (h : Turns condition body n m last)
    (hcondition : ∀ m m', condition m m' → condition' m m')
    (hbody : ∀ m m', body m m' → body' m m') : Turns condition' body' n m last := by
  induction h with
  | none m => exact .none m
  | more htest hturn _ ih => exact .more (htest.mono hcondition) (hbody _ _ hturn) ih

/-- One bound is large enough for all turns. -/
theorem eventually {c b : String} (h : Turns (Completes c) (Completes b) n m last) :
    ∃ bound, ∀ larger, bound ≤ larger →
      Turns (Finishes (evaluate larger c)) (Finishes (evaluate larger b)) n m last := by
  induction h with
  | none m => exact ⟨0, fun _ _ => .none m⟩
  | more htest hturn _ ih =>
    obtain ⟨b₁, h₁⟩ := htest.eventually
    obtain ⟨b₂, h₂⟩ := hturn.eventually
    obtain ⟨b₃, h₃⟩ := ih
    refine ⟨max b₁ (max b₂ b₃), fun larger hle => ?_⟩
    exact .more (h₁ larger (by omega)) (h₂ larger (by omega)) (h₃ larger (by omega))

/-- What one turn keeps, any number of turns keeps. -/
theorem keeps {property : Machine → Prop} (h : Turns condition body n m last)
    (hkeep : ∀ m tested next, property m → Tests condition true m tested → body tested next →
      property next)
    (hm : property m) : property last := by
  induction h with
  | none m => exact hm
  | more htest hturn _ ih => exact ih (hkeep _ _ _ hm htest hturn)

end Turns

/-- A loop on a condition, for any evaluator: some turns, fewer than the bound,
and then a condition that does not hold. -/
theorem Control.whileTrue_eq_ok {evaluate : String → Routine Unit} {condition body : String}
    {bound : Nat} {m m' : Machine} :
    runOn (whileTrue evaluate condition body bound) m = (.ok (), m') ↔
      ∃ n last, n < bound ∧
        Turns (Finishes (evaluate condition)) (Finishes (evaluate body)) n m last ∧
        Tests (Finishes (evaluate condition)) false last m' := by
  induction bound generalizing m with
  | zero =>
    constructor
    · exact fun h => nomatch (Prod.mk.inj h).1
    · rintro ⟨n, last, hn, -⟩
      exact absurd hn (Nat.not_lt_zero n)
  | succ bound ih =>
    rw [whileTrue_succ, runOn_bind_eq_ok]
    simp only [runOn_test_eq_ok]
    constructor
    · rintro ⟨holds, tested, htest, hrest⟩
      cases holds with
      | false =>
        obtain rfl : tested = m' := (Prod.mk.inj hrest).2
        exact ⟨0, m, Nat.succ_pos bound, .none m, htest⟩
      | true =>
        obtain ⟨_, next, hbody, hagain⟩ := runOn_bind_eq_ok.mp hrest
        obtain ⟨n, last, hn, hturns, hlast⟩ := ih.mp hagain
        exact ⟨n + 1, last, Nat.succ_lt_succ hn, .more htest hbody hturns, hlast⟩
    · rintro ⟨n, last, hn, hturns, hlast⟩
      cases hturns with
      | none => exact ⟨false, m', hlast, rfl⟩
      | more htest hbody hturns =>
        refine ⟨true, _, htest, runOn_bind_eq_ok.mpr ⟨(), _, hbody, ?_⟩⟩
        exact ih.mpr ⟨_, last, Nat.lt_of_succ_lt_succ hn, hturns, hlast⟩

/-- `while` ends normally exactly if after some turns its condition does not
hold.  It evaluates the condition once more than the body. -/
theorem executes_while_iff {x y : Value} {m m' : Machine} :
    Executes "while" (m.holding [x, y]) (.ok ()) m' ↔
      ∃ n last, Turns (Completes x.toText) (Completes y.toText) n (m.noting "while") last ∧
        Tests (Completes x.toText) false last m' := by
  have hrun : ∀ bound, runOn (Control.loop.run (evaluate bound) bound)
      ((m.holding [x, y]).noting "while") =
        runOn (Control.whileTrue (evaluate bound) x.toText y.toText bound) (m.noting "while") :=
    fun bound => rfl
  refine (executes_control_iff .loop).trans ?_
  constructor
  · rintro ⟨bound, hloop⟩
    obtain ⟨n, last, -, hturns, hlast⟩ := Control.whileTrue_eq_ok.mp ((hrun bound).symm.trans hloop)
    exact ⟨n, last, hturns.mono (fun _ _ => completes_of_finishes) fun _ _ => completes_of_finishes,
      hlast.mono fun _ _ => completes_of_finishes⟩
  · rintro ⟨n, last, hturns, hlast⟩
    obtain ⟨b₁, h₁⟩ := hturns.eventually
    obtain ⟨b₂, h₂⟩ := hlast.eventually
    refine ⟨max (n + 1) (max b₁ b₂), (hrun _).trans (Control.whileTrue_eq_ok.mpr ?_)⟩
    exact ⟨n, last, by omega, h₁ _ (by omega), h₂ _ (by omega)⟩

/-- **The rule for a loop on a condition.**  Let a property of machines be kept
by each turn in which the condition holds and the body ends normally.  If it
holds of the machine from which `while` has taken its two operands, and the
command ends normally, then the command has made some number of turns, with the
condition and the body that it took at the start, to a machine with the
property, and has left from there by a condition that does not hold.  So the
condition has been evaluated once more than the body. -/
theorem executes_while {x y : Value} {property : Machine → Prop}
    (hkeep : ∀ m tested next, property m → Tests (Completes x.toText) true m tested →
      Completes y.toText tested next → property next)
    {m m' : Machine} (hstart : property (m.noting "while"))
    (h : Executes "while" (m.holding [x, y]) (.ok ()) m') :
    ∃ n last, Turns (Completes x.toText) (Completes y.toText) n (m.noting "while") last ∧
      property last ∧ Tests (Completes x.toText) false last m' := by
  obtain ⟨n, last, hturns, hlast⟩ := executes_while_iff.mp h
  exact ⟨n, last, hturns, hturns.keeps hkeep hstart, hlast⟩

/-- A source with no tokens leaves the stack alone. -/
theorem Completes.stack_of_empty {m m' : Machine} (h : Completes "" m m') :
    m'.stack = m.stack := by
  have hrun : Completes "" m { m with history := m.history.push (.settled m.stack) } :=
    completes_of_finishes (show Finishes (evaluate 1 "") m _ from rfl)
  obtain ⟨-, rfl⟩ := Evaluates.unique h hrun
  rfl

/-- Without any code of its own the loop takes the true values off the stack, and
the false one after them. -/
theorem executes_while_flags :
    let m : Machine := { Machine.bare with
      stack := .ofList [.truth false, .truth true, .truth true] }
    let m' := (runOn (execute (evaluate 4) 4 "while") (m.holding [.blank, .blank])).2
    Executes "while" (m.holding [.blank, .blank]) (.ok ()) m' ∧ m'.stack = ⟨[]⟩ := by
  intro m m'
  let flags (m : Machine) : Prop :=
    ∃ k, m.stack = ⟨List.replicate k (.truth true) ++ [.truth false]⟩
  have hends : Executes "while" (m.holding [.blank, .blank]) (.ok ()) m' :=
    ⟨nofun, 4, runOn_eq_ok (by decide +kernel)⟩
  have hkeep : ∀ m tested next, flags m → Tests (Completes "") true m tested →
      Completes "" tested next → flags next := by
    rintro m tested next ⟨k, hk⟩ ⟨left, hcondition, htruth, rfl⟩ hbody
    have hleft := hcondition.stack_of_empty.trans hk
    have hnext : next.stack = left.stack.rest := hbody.stack_of_empty
    cases k with
    | zero =>
      rw [hleft] at htruth
      cases htruth
    | succ k =>
      refine ⟨k, ?_⟩
      rw [hnext, hleft]
      rfl
  obtain ⟨n, last, -, ⟨k, hk⟩, left, hcondition, htruth, hpopped⟩ :=
    executes_while (x := .blank) (y := .blank) hkeep ⟨2, rfl⟩ hends
  refine ⟨hends, ?_⟩
  have hleft := hcondition.stack_of_empty.trans hk
  have hrest : m'.stack = left.stack.rest := congrArg Machine.stack hpopped
  cases k with
  | zero =>
    rw [hrest, hleft]
    rfl
  | succ k =>
    rw [hleft] at htruth
    cases htruth

end ReversePolish
