/-
ReversePolish/Proofs/Restoring.lean

What comes back when a command refuses.  Six operators have a *subject*, the
operand that lies lowest: the list of `get`, `set`, `del` and `insert`, the
character code of `decode`, the text of `encode`.  Each brings its subject to
the kind it needs before it looks at it, and on a refusal gives back what it
has made of it.

`Routine.GivesBack` says of a routine that it takes its operands one after the
other and refuses, if at all, for a cause with a given property, having done
nothing else.  Hence a refusal leaves the machine as it was below the operands
(`execute_restores`), and the subject comes back unchanged exactly if it had
the right kind to begin with.
-/
import ReversePolish.Proofs.Coercion
import ReversePolish.Proofs.Exchange
import ReversePolish.Proofs.Literal

namespace ReversePolish

open Routine

/-- The kind to which an operator brings the operand that it gives back. -/
def Operator.subjectKind? : Operator → Option Kind
  | get | set | delete | insert => some .list
  | decode => some .number
  | encode => some .text
  | _ => none

/-! ### Refusals after the operands -/

namespace Routine

variable {given : Refusal → Prop} {operands rest : List Value}

/-- With these operands on top of the rest the routine refuses only for such a
cause, and has then done nothing but take the operands. -/
def GivesBack (given : Refusal → Prop) (operands rest : List Value) (r : Routine Unit) : Prop :=
  ∀ ⦃m m₁ : Machine⦄ ⦃cause : Refusal⦄, m.stack.topFirst = operands ++ rest →
    runOn r m = (.error (.refusal cause), m₁) →
    given cause ∧ m₁ = { m with stack := ⟨rest⟩ }

theorem GivesBack.mono {given' : Refusal → Prop} {r : Routine Unit}
    (h : GivesBack given operands rest r) (himp : ∀ cause, given cause → given' cause) :
    GivesBack given' operands rest r := by
  intro m m₁ cause hstack hrun
  obtain ⟨hgiven, hleft⟩ := h hstack hrun
  exact ⟨himp cause hgiven, hleft⟩

theorem givesBack_push (v : Value) : GivesBack given [] rest (push v) := by
  intro m m₁ cause _ hrun
  cases hrun

theorem givesBack_refuse {cause : Refusal} (h : given cause) :
    GivesBack given [] rest (refuse cause) := by
  intro m m₁ raised hstack hrun
  cases hrun
  obtain ⟨⟨topFirst⟩, store, host, history⟩ := m
  obtain rfl : topFirst = rest := hstack
  exact ⟨h, rfl⟩

theorem GivesBack.pop {v : Value} {next : Value → Routine Unit}
    (h : GivesBack given operands rest (next v)) :
    GivesBack given (v :: operands) rest (pop >>= next) := by
  intro m m₁ cause hstack hrun
  have hpop : runOn Routine.pop m =
      (.ok v, { m with stack := ⟨operands ++ rest⟩ }) := by
    rw [runOn_pop, Stack.pop?, hstack]
    rfl
  rw [runOn_bind_of_ok hpop] at hrun
  exact @h { m with stack := ⟨operands ++ rest⟩ } m₁ cause rfl hrun

/-- An operand in the form in which it is needed. -/
theorem GivesBack.popAs {α : Type} (form : Value → α) {v : Value} {next : α → Routine Unit}
    (h : GivesBack given operands rest (next (form v))) :
    GivesBack given (v :: operands) rest ((do return form (← Routine.pop)) >>= next) := by
  simp only [bind_assoc, pure_bind]
  exact .pop h

theorem GivesBack.popNumber {v : Value} {next : Number → Routine Unit}
    (h : ∀ n, v.toNumber = .ok n → GivesBack given operands rest (next n)) :
    GivesBack given (v :: operands) rest (popNumber >>= next) := by
  simp only [Routine.popNumber, bind_assoc]
  refine .pop ?_
  cases hv : v.toNumber with
  | ok n => exact h n hv
  | error cause =>
    -- a misspelled number is a fault and no refusal
    intro m m₁ cause _ hrun
    cases hrun

theorem GivesBack.popIndex {v : Value} {next : Nat → Routine Unit}
    (h : ∀ index, GivesBack given operands rest (next index)) :
    GivesBack given (v :: operands) rest (popIndex >>= next) := by
  simp only [Routine.popIndex, bind_assoc, pure_bind]
  exact .popNumber fun n _ => h n.toIndex

/-- A result if the index fits, else a refusal. -/
theorem givesBack_fit (fits : Prop) [Decidable fits] (v : Value) {cause : Refusal}
    (h : given cause) : GivesBack given [] rest (if fits then push v else refuse cause) := by
  split
  · exact givesBack_push v
  · exact givesBack_refuse h

end Routine

/-! ### The subjects -/

/-- The cause gives back the subject as a value of the kind `k`. -/
def Refusal.Restores (k : Kind) (subject : Value) (cause : Refusal) : Prop :=
  ∃ restored, subject.coerce k = .ok restored ∧ cause.restore = [restored]

theorem Refusal.restores_indexOutOfRange (index : Nat) (subject : Value) :
    Restores .list subject (.indexOutOfRange index subject.toList) :=
  ⟨_, rfl, rfl⟩

/-- Only the empty text is empty as a text. -/
theorem Value.eq_blank_of_toText {v : Value} (h : v.toText.toList = []) : v = .blank := by
  cases v with
  | text s =>
    rw [toText, String.toList_eq_nil_iff] at h
    rw [h]
    rfl
  | number | truth | list => exact absurd h (display_ne_nil _)

namespace Operator

variable {subject : Value} {rest : List Value}

theorem givesBack_get (index : Value) :
    GivesBack (Refusal.Restores .list subject) [index, subject] rest runGet := by
  refine .popIndex fun i => .popAs Value.toList ?_
  split
  · exact givesBack_push _
  · exact givesBack_refuse (Refusal.restores_indexOutOfRange i subject)

theorem givesBack_decode :
    GivesBack (Refusal.Restores .number subject) [subject] rest runDecode := by
  refine .popNumber fun code hcode => ?_
  split
  · exact givesBack_push _
  · apply givesBack_refuse
    exact ⟨.number code, by simp [Value.coerce, hcode, Except.map], rfl⟩

/-- `encode` refuses the empty text, which nothing else is taken for. -/
theorem givesBack_encode :
    GivesBack (fun cause => subject = .blank ∧ Refusal.Restores .text subject cause) [subject] rest
      runEncode := by
  refine .popAs Value.toText ?_
  split
  · rename_i hempty
    obtain rfl := Value.eq_blank_of_toText hempty
    exact givesBack_refuse ⟨rfl, _, rfl, rfl⟩
  · exact givesBack_push _

/-- With all its operands on the stack an operator that refuses gives back its
subject, brought to the kind it needs. -/
theorem givesBack {op : Operator} {k : Kind} {others : List Value}
    (hkind : op.subjectKind? = some k) (harity : others.length + 1 = op.arity) :
    GivesBack (fun cause => Refusal.Restores k subject cause ∧ (op = .encode → subject.kind = k))
      (others ++ [subject]) rest op.run := by
  cases op with
  | get =>
    cases hkind
    obtain ⟨index, rfl⟩ := List.length_eq_one_iff.mp (Nat.succ.inj harity)
    exact (givesBack_get index).mono fun _ h => ⟨h, nofun⟩
  | decode =>
    cases hkind
    obtain rfl := List.length_eq_zero_iff.mp (Nat.succ.inj harity)
    exact givesBack_decode.mono fun _ h => ⟨h, nofun⟩
  | encode =>
    cases hkind
    obtain rfl := List.length_eq_zero_iff.mp (Nat.succ.inj harity)
    refine givesBack_encode.mono ?_
    rintro cause ⟨rfl, h⟩
    exact ⟨h, fun _ => rfl⟩
  | delete =>
    cases hkind
    obtain ⟨index, rfl⟩ := List.length_eq_one_iff.mp (Nat.succ.inj harity)
    refine .popIndex fun i => .popAs Value.toList (givesBack_fit _ _ ⟨?_, nofun⟩)
    exact Refusal.restores_indexOutOfRange i subject
  | set | insert =>
    cases hkind
    obtain ⟨v, index, rfl⟩ := List.length_eq_two.mp (Nat.succ.inj harity)
    refine .pop (.popIndex fun i => .popAs Value.toList (givesBack_fit _ _ ⟨?_, nofun⟩))
    exact Refusal.restores_indexOutOfRange i subject
  | _ => cases hkind

end Operator

/-! ### After the refusal -/

/-- The machine `m'` after a command that was called on `m`, has refused its
operands and given one value back. -/
structure Restored (m : Machine) (restored : Value) (rest : List Value) (message : String)
    (m' : Machine) : Prop where
  stack : m'.stack.topFirst = restored :: rest
  store : m'.store = m.store
  host : m'.host = m.host
  output : m'.history.output = m.history.output
  log : m'.history.log = m.history.log ++ ("Error: " ++ message ++ "\n")
  prompts : m'.history.prompts = m.history.prompts
  sleeps : m'.history.sleeps = m.history.sleeps

/-- Of several values that are given back the last one is on top. -/
theorem Machine.restored_recovered_last (m : Machine) (name : String) (others : List Value)
    {restored : Value} (rest : List Value) {cause : Refusal}
    (h : cause.restore = others ++ [restored]) :
    Restored m restored (others.reverse ++ rest) cause.message
      ({ m.noting name with stack := ⟨rest⟩ }.recovered cause) where
  stack := by simp [recovered, h]
  store := rfl
  host := rfl
  output := by simp [recovered, noting, Event.output]
  log := by simp [recovered, noting, Event.log]
  prompts := by simp [recovered, noting, Event.prompt?]
  sleeps := by simp [recovered, noting, Event.sleep?]

theorem Machine.restored_recovered (m : Machine) (name : String) {restored : Value}
    (rest : List Value) {cause : Refusal} (h : cause.restore = [restored]) :
    Restored m restored rest cause.message
      ({ m.noting name with stack := ⟨rest⟩ }.recovered cause) :=
  m.restored_recovered_last name [] rest h

/-- An operator that has taken its operands and then refuses them for a cause
that gives some values back. -/
theorem execute_refused_last (op : Operator) (cause : Refusal) {operands : List Value}
    (others : List Value) {v : Value} {m : Machine} (hrestore : cause.restore = others ++ [v])
    (hrefuses : runOn op.run ((m.noting op.name).holding operands) =
      (.error (.refusal cause), m.noting op.name))
    (evaluate : String → Routine Unit) (bound : Nat) :
    ∃ m', runOn (execute evaluate bound op.name) (m.holding operands) = (.ok (), m') ∧
      Restored m v (others.reverse ++ m.stack.topFirst) cause.message m' := by
  refine ⟨(m.noting op.name).recovered cause, ?_,
    m.restored_recovered_last op.name others _ hrestore⟩
  have hname := runOn_execute_name evaluate bound (.operator op) (m.holding operands)
  exact (hname.trans (runOn_recovering_of_refusal hrefuses)).trans (runOn_recover cause _)

/-- An operator that gives one value back. -/
theorem execute_refused (op : Operator) (cause : Refusal) {operands : List Value} {v : Value}
    {m : Machine} (hrestore : cause.restore = [v])
    (hrefuses : runOn op.run ((m.noting op.name).holding operands) =
      (.error (.refusal cause), m.noting op.name))
    (evaluate : String → Routine Unit) (bound : Nat) :
    ∃ m', runOn (execute evaluate bound op.name) (m.holding operands) = (.ok (), m') ∧
      Restored m v m.stack.topFirst cause.message m' :=
  execute_refused_last op cause [] hrestore hrefuses evaluate bound

/-- **A refusal gives the subject back, in the kind in which it was needed.**
The six operators with a subject, called with all their operands on the stack,
leave it on top of the rest of the stack when they refuse; besides that there
is one line more in the log and nothing else has changed.  The subject has not
changed either if it was of the right kind, as it always is for `encode`. -/
theorem execute_restores {op : Operator} {k : Kind} (hkind : op.subjectKind? = some k)
    {m m₁ : Machine} {others rest : List Value} {subject : Value} {cause : Refusal}
    (hstack : m.stack.topFirst = others ++ subject :: rest)
    (harity : others.length + 1 = op.arity)
    (hrefuses : runOn op.run (m.noting op.name) = (.error (.refusal cause), m₁))
    (evaluate : String → Routine Unit) (bound : Nat) :
    ∃ restored m', runOn (execute evaluate bound op.name) m = (.ok (), m') ∧
      Restored m restored rest cause.message m' ∧
      subject.coerce k = .ok restored ∧ (restored = subject ↔ subject.kind = k) ∧
      (op = .encode → restored = subject) := by
  have hoperands : (m.noting op.name).stack.topFirst = (others ++ [subject]) ++ rest := by
    simpa [Machine.noting] using hstack
  obtain ⟨⟨⟨restored, hcoerce, hrestore⟩, hencode⟩, hleft⟩ :=
    Operator.givesBack hkind harity hoperands hrefuses
  have hrun : runOn (execute evaluate bound op.name) m = (.ok (), m₁.recovered cause) := by
    have hname := runOn_execute_name evaluate bound (.operator op) m
    exact (hname.trans (runOn_recovering_of_refusal hrefuses)).trans (runOn_recover cause m₁)
  subst hleft
  have hsame : restored = subject ↔ subject.kind = k := by
    constructor
    · rintro rfl
      exact Value.kind_of_coerce hcoerce
    · rintro rfl
      rw [Value.coerce_kind] at hcoerce
      exact (Except.ok.inj hcoerce).symm
  exact ⟨restored, _, hrun, m.restored_recovered op.name rest hrestore, hcoerce, hsame,
    fun hop => hsame.mpr (hencode hop)⟩

/-- A text that was to be changed at an index beyond its end. -/
theorem execute_restores_set :
    let m : Machine := { Machine.bare with
      stack := .ofList [.truth true, .text "ab", .ofNat 7, .text "c"] }
    ∃ cause m₁ restored m',
      runOn Operator.set.run (m.noting "set") = (.error (.refusal cause), m₁) ∧
      runOn (execute (evaluate 1) 1 "set") m = (.ok (), m') ∧
      Restored m restored [.truth true] cause.message m' ∧
      (Value.text "ab").coerce .list = .ok restored ∧ restored ≠ .text "ab" := by
  intro m
  obtain ⟨cause, hrefuses⟩ := exists_refusal (r := Operator.set.run) (m := m.noting "set")
    (by decide +kernel)
  obtain ⟨restored, m', hrun, hrestored, hcoerce, hsame, -⟩ :=
    @execute_restores .set .list rfl m _ [.text "c", .ofNat 7] [.truth true] (.text "ab") cause rfl
      rfl hrefuses (evaluate 1) 1
  exact ⟨cause, _, restored, m', hrefuses, hrun, hrestored, hcoerce, fun h => nomatch hsame.mp h⟩

/-- A refusal does not always give the subject back as it was: a text comes
back as the list of its characters. -/
theorem execute_not_restoring :
    ¬∀ (op : Operator) (k : Kind) (m m₁ m' : Machine) (others rest : List Value) (subject : Value)
      (cause : Refusal), op.subjectKind? = some k →
      m.stack.topFirst = others ++ subject :: rest → others.length + 1 = op.arity →
      runOn op.run (m.noting op.name) = (.error (.refusal cause), m₁) →
      runOn (execute (evaluate 1) 1 op.name) m = (.ok (), m') →
      m'.stack.topFirst = subject :: rest := by
  intro hgiven
  let m : Machine := { Machine.bare with stack := .ofList [.text "abc", .ofNat 5] }
  obtain ⟨cause, hrefuses⟩ := exists_refusal (r := Operator.get.run) (m := m.noting "get")
    (by decide +kernel)
  have hrun : runOn (execute (evaluate 1) 1 "get") m =
      (.ok (), (runOn (execute (evaluate 1) 1 "get") m).2) := runOn_eq_ok (by decide +kernel)
  have hstack := hgiven .get .list m _ _ [.ofNat 5] [] (.text "abc") cause rfl rfl rfl hrefuses hrun
  have hkinds : (runOn (execute (evaluate 1) 1 "get") m).2.stack.topFirst.map Value.kind =
      [.list] := by decide +kernel
  rw [hstack] at hkinds
  cases hkinds

end ReversePolish
