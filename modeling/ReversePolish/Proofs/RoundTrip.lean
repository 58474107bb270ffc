/-
ReversePolish/Proofs/RoundTrip.lean

Display and evaluation.  Evaluating the display form of a value pushes the
value, on every machine, and does nothing else: no literal is looked up among
the variables, and the only events are traces.

`Routine.Pushes` says what one token does.  It is carried through the loop
over the tokens of a list and through the collection of its elements, so the
proof is an induction on the value; the bound needed grows with the depth of
the lists.  The main result is `evaluates_display`.
-/
import ReversePolish.Proofs.Evaluation
import ReversePolish.Proofs.History
import ReversePolish.Proofs.Literal

namespace ReversePolish

/-- An event that only shows where the run stands. -/
def Event.IsTrace : Event → Prop
  | traced .. => True
  | settled .. => True
  | listEntered .. => True
  | _ => False

theorem Event.IsTrace.output_eq {e : Event} (h : e.IsTrace) : e.output = "" := by
  cases e with
  | printed => exact absurd h id
  | _ => rfl

namespace Routine

/-- On every machine the routine ends normally, leaves the given values on
top of the stack, the last one uppermost, and does nothing else but trace. -/
def Pushes (r : Routine Unit) (vs : List Value) : Prop :=
  ∀ m, ∃ added : History, (∀ e ∈ added, e.IsTrace) ∧
    runOn r m = (.ok (), { m with
      stack := ⟨vs.reverse ++ m.stack.topFirst⟩, history := m.history ++ added })

theorem pushes_push (v : Value) : Pushes (push v) [v] := by
  intro m
  refine ⟨#[], by simp, ?_⟩
  rw [Array.append_empty]
  rfl

theorem pushes_trace (token : String) : Pushes (trace token) [] := by
  intro m
  refine ⟨#[.traced m.stack token], by simp [Event.IsTrace], ?_⟩
  rw [Array.append_singleton]
  rfl

theorem pushes_settle : Pushes settle [] := by
  intro m
  refine ⟨#[.settled m.stack], by simp [Event.IsTrace], ?_⟩
  rw [Array.append_singleton]
  rfl

theorem Pushes.bind {r r' : Routine Unit} {vs ws : List Value} (h : Pushes r vs)
    (h' : Pushes r' ws) : Pushes (do r; r') (vs ++ ws) := by
  intro m
  obtain ⟨added, htrace, hrun⟩ := h m
  obtain ⟨added', htrace', hrun'⟩ := h' { m with
    stack := ⟨vs.reverse ++ m.stack.topFirst⟩, history := m.history ++ added }
  refine ⟨added ++ added', ?_, ?_⟩
  · intro e he
    rcases Array.mem_append.mp he with he | he
    · exact htrace e he
    · exact htrace' e he
  · rw [runOn_bind_of_ok hrun, hrun']
    simp

/-- A loop over tokens that push one value each. -/
theorem Pushes.forM {α : Type} {token : α → String} {value : α → Value}
    {step : String → Routine Unit} {items : List α}
    (h : ∀ a ∈ items, Pushes (step (token a)) [value a]) :
    Pushes ((items.map token).forM step) (items.map value) := by
  induction items with
  | nil =>
    intro m
    refine ⟨#[], by simp, ?_⟩
    rw [Array.append_empty]
    rfl
  | cons a items ih =>
    exact (h a List.mem_cons_self).bind (ih fun b hb => h b (List.mem_cons_of_mem a hb))

/-- A list literal pushes the list of what its body pushes. -/
theorem Pushes.collect {evaluate : String → Routine Unit} {body : String} {vs : List Value}
    (h : Pushes (evaluate body) vs) (token : String) :
    Pushes (collect evaluate token body) [.list vs] := by
  intro m
  obtain ⟨added, htrace, hrun⟩ := h (m.entering token)
  refine ⟨#[.listEntered token m.stack.size] ++ added, ?_, ?_⟩
  · intro e he
    rcases Array.mem_append.mp he with he | he
    · obtain rfl := Array.mem_singleton.mp he
      trivial
    · exact htrace e he
  · rw [runOn_collect_of_ok hrun]
    -- the stack has grown by exactly the values of the body
    have hgather : (⟨vs.reverse ++ m.stack.topFirst⟩ : Stack).gather vs.length =
        ⟨[.list vs].reverse ++ m.stack.topFirst⟩ := by
      simp [Stack.gather]
    have hsize : (⟨vs.reverse ++ m.stack.topFirst⟩ : Stack).size - m.stack.size = vs.length := by
      simp [Stack.size]
    have hhistory : m.history ++ (#[.listEntered token m.stack.size] ++ added) =
        m.history.push (.listEntered token m.stack.size) ++ added := by
      rw [← Array.append_assoc, Array.append_singleton]
    rw [hhistory, ← hgather, ← hsize]
    rfl

/-- The trace of a token pushes nothing. -/
theorem Pushes.visitToken {evaluate : String → Routine Unit} {bound : Nat} {token : String}
    {vs : List Value} (h : Pushes (evaluateToken evaluate bound token) vs) :
    Pushes (visitToken evaluate bound token) vs :=
  (pushes_trace token).bind h

end Routine

open Routine

/-! ### Evaluation of literals -/

/-- What holds of every element from some bound on, holds of all elements from
some bound on. -/
theorem exists_common_bound {α : Type} {P : Nat → α → Prop} {items : List α}
    (h : ∀ a ∈ items, ∃ bound, ∀ larger, bound ≤ larger → P larger a) :
    ∃ bound, ∀ larger, bound ≤ larger → ∀ a ∈ items, P larger a := by
  induction items with
  | nil => exact ⟨0, fun _ _ a ha => absurd ha List.not_mem_nil⟩
  | cons a items ih =>
    obtain ⟨b₁, h₁⟩ := h a List.mem_cons_self
    obtain ⟨b₂, h₂⟩ := ih fun b hb => h b (List.mem_cons_of_mem a hb)
    refine ⟨max b₁ b₂, fun larger hle b hb => ?_⟩
    rcases List.mem_cons.mp hb with rfl | hb
    · exact h₁ larger (by omega)
    · exact h₂ larger (by omega) b hb

/-- A source whose tokens push one value each pushes these values. -/
theorem evaluate_pushes {bound : Nat} {items : List Value} {value : Value → Value}
    (hlone : ∀ v ∈ items, Lone v.display)
    (h : ∀ v ∈ items, Pushes (evaluateToken (evaluate bound) bound v.display) [value v]) :
    Pushes (evaluate (bound + 1) (String.intercalate " " (items.map Value.display)))
      (items.map value) := by
  have htokens : tokenize (String.intercalate " " (items.map Value.display)) =
      items.map Value.display := by
    apply tokenize_join
    intro token htoken
    obtain ⟨v, hv, rfl⟩ := List.mem_map.mp htoken
    exact hlone v hv
  have hloop : Pushes ((items.map Value.display).forM (visitToken (evaluate bound) bound))
      (items.map value) := Pushes.forM fun v hv => (h v hv).visitToken
  have hrun := hloop.bind pushes_settle
  rw [List.append_nil] at hrun
  rw [evaluate, htokens]
  exact hrun

/-- The literal of a value pushes the value. -/
theorem evaluateToken_display {v : Value} (h : ∀ s ∈ v.texts, Quotable s) :
    ∃ bound, ∀ larger, bound ≤ larger →
      Pushes (evaluateToken (evaluate larger) larger v.display) [v.mapNumbers Number.reread] := by
  induction v with
  | number n =>
    refine ⟨0, fun larger _ => ?_⟩
    rw [Value.display, evaluateToken, Token.ofText_number, Value.mapNumbers]
    exact pushes_push _
  | text s =>
    refine ⟨0, fun larger _ => ?_⟩
    rw [evaluateToken, Token.ofText_quoted, Value.mapNumbers]
    exact pushes_push _
  | truth b =>
    refine ⟨0, fun larger _ => ?_⟩
    rw [evaluateToken, Token.ofText_truth, Value.mapNumbers]
    exact pushes_push _
  | list items ih =>
    have hitem : ∀ v ∈ items, ∀ s ∈ v.texts, Quotable s := fun v hv s hs => h s (by
      rw [Value.texts_list]
      exact List.mem_flatMap.mpr ⟨v, hv, hs⟩)
    obtain ⟨bound, hbound⟩ := exists_common_bound fun v hv => ih v hv (hitem v hv)
    refine ⟨bound + 1, fun larger hle => ?_⟩
    obtain ⟨larger, rfl⟩ : ∃ k, larger = k + 1 := ⟨larger - 1, by omega⟩
    have hbody := evaluate_pushes (fun v hv => Value.display_lone (hitem v hv))
      (hbound larger (by omega))
    rw [evaluateToken, Token.ofText_bracketed, Value.mapNumbers, Value.mapNumbersIn_eq_map]
    exact hbody.collect _

/-- **Display and evaluation.**  Evaluating the display form of a value whose
texts can be quoted ends normally on every machine.  It pushes the value, with
each number as its text reads back, leaves the variables, the host and the
output alone, and reports no error. -/
theorem evaluates_display (v : Value) (h : ∀ s ∈ v.texts, Quotable s) (m : Machine) :
    ∃ m', Evaluates v.display m (.ok ()) m' ∧
      m'.stack.toList = m.stack.toList ++ [v.mapNumbers Number.reread] ∧
      (∀ n : Number, Numeral.read n.text = .number n.reread) ∧
      m'.store = m.store ∧ m'.host = m.host ∧ m'.history.output = m.history.output ∧
      ∀ message, .recovered message ∉ m.added m' := by
  obtain ⟨bound, hbound⟩ := evaluateToken_display h
  have hpushes : Pushes (evaluate (bound + 1) v.display) [v.mapNumbers Number.reread] := by
    have hlone : ∀ w ∈ [v], Lone w.display := by
      intro w hw
      obtain rfl := List.mem_singleton.mp hw
      exact Value.display_lone h
    have hall := @evaluate_pushes bound [v] (Value.mapNumbers Number.reread) hlone fun w hw => by
      obtain rfl := List.mem_singleton.mp hw
      exact hbound bound (Nat.le_refl bound)
    rwa [List.map_singleton, String.intercalate_singleton] at hall
  obtain ⟨added, htrace, hrun⟩ := hpushes m
  refine ⟨_, ⟨nofun, bound + 1, hrun⟩, ?_, Number.read_text, rfl, rfl, ?_, ?_⟩
  · simp [Stack.toList]
  · have hsilent : added.output = "" :=
      History.textOf_eq_empty fun e he => (htrace e (Array.mem_toList_iff.mp he)).output_eq
    rw [History.output_append, hsilent, String.append_empty]
  · intro message hmem
    rw [Machine.added_eq rfl] at hmem
    exact htrace _ hmem

/-- A list whose text has brackets, spaces, nested parentheses and a pair of
hash marks in it, on a machine that binds a name spelled like a literal. -/
theorem evaluates_display_nested :
    let m : Machine := { Machine.bare with
      stack := .ofList [.truth false], store := .ofList [("true", .number .nan)] }
    ∃ m', Evaluates "[(a [ (# ] #)) true [1]]" m (.ok ()) m' ∧
      m'.stack.toList = [.truth false,
        .list [.text "a [ (# ] #)", .truth true, .list [.number .one]]] ∧
      m'.store.names = ["true"] ∧ m'.history.output = "" := by
  intro m
  have hquotable : ∀ s ∈ ["a [ (# ] #)"], Quotable s := by
    intro s hs
    obtain rfl := List.mem_singleton.mp hs
    refine ⟨forall_mem_of_all (by decide), by decide, fun cs hcs => ?_, by decide⟩
    have hall : ∀ cs ∈ "a [ (# ] #)".toList.inits, cs.count ')' ≤ cs.count '(' := by decide
    exact hall cs ((List.mem_inits _ _).mpr hcs)
  have hdisplay : (Value.list [.text "a [ (# ] #)", .truth true, .list [.number .one]]).display =
      "[(a [ (# ] #)) true [1]]" := by decide +kernel
  have hone : Number.one.reread = .one := by decide +kernel
  obtain ⟨m', hm', hstack, -, hstore, -, houtput, -⟩ := evaluates_display
    (.list [.text "a [ (# ] #)", .truth true, .list [.number .one]]) hquotable m
  rw [hdisplay] at hm'
  refine ⟨m', hm', ?_, ?_, houtput⟩
  · rw [hstack]
    simp only [Value.mapNumbers, Value.mapNumbersIn, hone]
    rfl
  · rw [hstore]
    decide +kernel

end ReversePolish
