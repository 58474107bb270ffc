/-
ReversePolish/Proofs/Editing.lean

Lists edited at an index.  Four operators take a subject and an index, bring
the one to a list and the other to a natural number, and then either give a
result or refuse: `get`, `set` and `del` need an element at the index, and
`insert` also takes the end of the list.  `Operator.Edit` says this of each of
them, and from it follow what they exchange on the stack and what a refusal
leaves.

The laws that relate them to each other (`EditingLaws`) are then facts about
lists.  The operands are any values at all, as long as the index can be taken
for a number.
-/
import ReversePolish.Proofs.Restoring

namespace ReversePolish

open Routine

/-! ### Operators with an index -/

/-- The operator refuses these operands, on top of what the machine holds. -/
def Operator.Refuses (op : Operator) (operands : List Value) (m : Machine) : Prop :=
  ∃ cause m₁, runOn op.run (m.holding operands) = (.error (.refusal cause), m₁)

/-- An operator that refuses under some condition, and otherwise ends normally. -/
theorem Operator.refuses_iff {op : Operator} {operands : List Value} {m : Machine} {unfit : Prop}
    (hrefused : unfit → op.Refuses operands m)
    (hdone : ¬unfit → ∃ m₁, runOn op.run (m.holding operands) = (.ok (), m₁)) :
    op.Refuses operands m ↔ unfit := by
  refine ⟨?_, hrefused⟩
  rintro ⟨cause, m₁, hrun⟩
  by_contra hfit
  obtain ⟨m₂, hends⟩ := hdone hfit
  rw [hends] at hrun
  cases hrun

/-- The operator gives a result if the index fits the list, and refuses the index
otherwise. -/
structure Operator.Edit (op : Operator) (operands : List Value) (index : Nat) (items : List Value)
    (fits : Prop) (result : Value) : Prop where
  done : fits → ∀ m : Machine, runOn op.run (m.holding operands) = (.ok (), m.holding [result])
  refused : ¬fits → ∀ m : Machine, runOn op.run (m.holding operands) =
    (.error (.refusal (.indexOutOfRange index items)), m)

namespace Operator.Edit

variable {op : Operator} {operands items : List Value} {index : Nat} {fits : Prop} {result : Value}

theorem refuses_iff (h : op.Edit operands index items fits result) (m : Machine) :
    op.Refuses operands m ↔ ¬fits :=
  Operator.refuses_iff (fun hunfit => ⟨_, _, h.refused hunfit m⟩)
    fun hfits => ⟨_, h.done (Classical.not_not.mp hfits) m⟩

theorem exchanges (h : op.Edit operands index items fits result) (hfits : fits)
    (evaluate : String → Routine Unit) (bound : Nat) :
    Exchanges (execute evaluate bound op.name) operands [result] :=
  .execute (c := .operator op) (.of_run (h.done hfits))

theorem restored (h : op.Edit operands index items fits result) (hfits : ¬fits)
    (evaluate : String → Routine Unit) (bound : Nat) (m : Machine) :
    ∃ m', runOn (execute evaluate bound op.name) (m.holding operands) = (.ok (), m') ∧
      Restored m (.list items) m.stack.topFirst (Refusal.indexOutOfRange index items).message m' :=
  execute_refused op (.indexOutOfRange index items) rfl (h.refused hfits (m.noting op.name))
    evaluate bound

end Operator.Edit

namespace Operator

section Runs

variable {k : Value} {n : Number}

/-- The subject and the index, when they are there. -/
theorem runOn_popSubject (hk : k.toNumber = .ok n) (v : Value)
    (next : Nat → List Value → Routine Unit) (m : Machine) :
    runOn (do let index ← popIndex; let items ← popList; next index items) (m.holding [v, k]) =
      runOn (next n.toIndex v.toList) m := by
  have hindex : runOn popIndex (m.holding [v, k]) = (.ok n.toIndex, m.holding [v]) :=
    runOn_popIndex hk (m.holding [v])
  have hitems : runOn popList (m.holding [v]) = (.ok v.toList, m) := rfl
  rw [runOn_bind_of_ok hindex, runOn_bind_of_ok hitems]

/-- An operator that takes a subject and an index, looks whether the index fits,
and pushes a result or refuses. -/
theorem edit_of_run {op : Operator} {operands items : List Value} {index : Nat} {fits : Prop}
    [Decidable fits] {result : Value}
    (hrun : ∀ m : Machine, runOn op.run (m.holding operands) =
      runOn (if fits then push result else refuse (.indexOutOfRange index items)) m) :
    op.Edit operands index items fits result where
  done hfits m := by
    rw [hrun, if_pos hfits]
    rfl
  refused hfits m := by
    rw [hrun, if_neg hfits]
    rfl

theorem edit_get (hk : k.toNumber = .ok n) (v : Value) :
    Operator.get.Edit [v, k] n.toIndex v.toList (n.toIndex < v.toList.length)
      (v.toList.getD n.toIndex .blank) := by
  refine edit_of_run fun m => ?_
  refine (runOn_popSubject hk v _ m).trans ?_
  by_cases hfits : n.toIndex < v.toList.length
  · rw [if_pos hfits, List.getD_eq_getElem?_getD, List.getElem?_eq_getElem hfits]
    rfl
  · rw [if_neg hfits, List.getElem?_eq_none (Nat.le_of_not_lt hfits)]

theorem edit_set (hk : k.toNumber = .ok n) (v w : Value) :
    Operator.set.Edit [v, k, w] n.toIndex v.toList (n.toIndex < v.toList.length)
      (.list (v.toList.set n.toIndex w)) :=
  edit_of_run fun m => runOn_popSubject hk v _ m

theorem edit_delete (hk : k.toNumber = .ok n) (v : Value) :
    Operator.delete.Edit [v, k] n.toIndex v.toList (n.toIndex < v.toList.length)
      (.list (v.toList.eraseIdx n.toIndex)) :=
  edit_of_run fun m => runOn_popSubject hk v _ m

theorem edit_insert (hk : k.toNumber = .ok n) (v w : Value) :
    Operator.insert.Edit [v, k, w] n.toIndex v.toList (n.toIndex ≤ v.toList.length)
      (.list (v.toList.insertIdx n.toIndex w)) :=
  edit_of_run fun m => runOn_popSubject hk v _ m

end Runs

end Operator

/-! ### Exchanges -/

section Exchanges

variable {k : Value} {n : Number} (evaluate : String → Routine Unit) (bound : Nat)

theorem exchanges_get (hk : k.toNumber = .ok n) {v u : Value} (hu : v.toList[n.toIndex]? = some u) :
    Exchanges (execute evaluate bound Operator.get.name) [v, k] [u] := by
  obtain ⟨hfits, -⟩ := List.getElem?_eq_some_iff.mp hu
  have hget := (Operator.edit_get hk v).exchanges hfits evaluate bound
  rwa [List.getD_eq_getElem?_getD, hu] at hget

theorem exchanges_append (v w : Value) :
    Exchanges (execute evaluate bound Operator.append.name) [v, w] [.list (v.toList ++ [w])] :=
  .execute (c := .operator .append) (.of_run fun _ => rfl)

variable {evaluate bound}

/-- An edited list, and then one of its elements. -/
theorem Routine.Exchanges.then_get {r : Routine Unit} {taken items : List Value}
    (h : Exchanges r taken [.list items]) (hk : k.toNumber = .ok n) {u : Value}
    (hu : items[n.toIndex]? = some u) :
    Exchanges (do r; push k; ReversePolish.execute evaluate bound Operator.get.name) taken [u] :=
  h.trans ((exchanges_push _ k).trans (exchanges_get evaluate bound hk (v := .list items) hu))

/-- What has been put into a list can be taken out again. -/
theorem exchanges_insert_delete (hk : k.toNumber = .ok n) {v : Value}
    (hfits : n.toIndex ≤ v.toList.length) (w : Value) :
    Exchanges (do
      execute evaluate bound Operator.insert.name
      push k
      execute evaluate bound Operator.delete.name) [v, k, w] [.list v.toList] := by
  have hlength : n.toIndex < (v.toList.insertIdx n.toIndex w).length := by
    rw [List.length_insertIdx_of_le_length hfits]
    omega
  have hinsert := (Operator.edit_insert hk v w).exchanges hfits evaluate bound
  have hdelete := (Operator.edit_delete hk (.list (v.toList.insertIdx n.toIndex w))).exchanges
    hlength evaluate bound
  rw [Value.toList, List.eraseIdx_insertIdx_self] at hdelete
  exact hinsert.trans ((exchanges_push _ k).trans hdelete)

end Exchanges

/-! ### The laws -/

/-- The elements after an insertion at a place that there is. -/
theorem getElem?_insertIdx_of_le {items : List Value} {i : Nat} (h : i ≤ items.length) (w : Value)
    (j : Nat) :
    (items.insertIdx i w)[j]? =
      if j < i then items[j]? else if j = i then some w else items[j - 1]? := by
  rw [List.getElem?_insertIdx]
  split_ifs with hbefore hat hend
  · rfl
  · rfl
  · omega
  · rfl

/-- The laws of editing a list, given how to run an operator, for a subject `v`, an
operand `k` that stands for the index `i`, and a value `w`.  The other operands
`l` stand for any index `j`. -/
structure EditingLaws (run : Operator → Routine Unit) (v k w : Value) (i : Nat) : Prop where
  get_refuses (m : Machine) : Operator.get.Refuses [v, k] m ↔ v.toList.length ≤ i
  set_refuses (m : Machine) : Operator.set.Refuses [v, k, w] m ↔ v.toList.length ≤ i
  delete_refuses (m : Machine) : Operator.delete.Refuses [v, k] m ↔ v.toList.length ≤ i
  insert_refuses (m : Machine) : Operator.insert.Refuses [v, k, w] m ↔ v.toList.length < i
  /-- A refusal gives back the list and adds one line to the log. -/
  restored (m : Machine) : ∀ edit ∈ [(Operator.get, [v, k]), (.set, [v, k, w]), (.delete, [v, k]),
    (.insert, [v, k, w])], edit.1.Refuses edit.2 m → ∃ m',
      runOn (run edit.1) (m.holding edit.2) = (.ok (), m') ∧
      Restored m (.list v.toList) m.stack.topFirst
        ("Index " ++ toString i ++ " is out of range for a list of length " ++
          toString v.toList.length) m'
  get_element : ∀ u, v.toList[i]? = some u → Exchanges (run .get) [v, k] [u]
  set_length : i < v.toList.length → ∃ items, Exchanges (run .set) [v, k, w] [.list items] ∧
    items.length = v.toList.length
  set_get : i < v.toList.length → Exchanges (do run .set; push k; run .get) [v, k, w] [w]
  set_get_other : i < v.toList.length → ∀ (l : Value) (j : Number), l.toNumber = .ok j →
    j.toIndex ≠ i → ∀ u, v.toList[j.toIndex]? = some u →
      Exchanges (run .get) [v, l] [u] ∧
      Exchanges (do run .set; push l; run .get) [v, k, w] [u]
  insert_delete : i ≤ v.toList.length →
    Exchanges (do run .insert; push k; run .delete) [v, k, w] [.list v.toList]
  insert_append : i = v.toList.length → ∃ result,
    Exchanges (run .insert) [v, k, w] [result] ∧ Exchanges (run .append) [v, w] [result]
  insert_get : i ≤ v.toList.length → ∀ (l : Value) (j : Number), l.toNumber = .ok j → ∀ u,
    (if j.toIndex < i then v.toList[j.toIndex]?
      else if j.toIndex = i then some w else v.toList[j.toIndex - 1]?) = some u →
    Exchanges (do run .insert; push l; run .get) [v, k, w] [u]
  delete_length : i < v.toList.length → ∃ items, Exchanges (run .delete) [v, k] [.list items] ∧
    items.length = v.toList.length - 1
  delete_get : i < v.toList.length → ∀ (l : Value) (j : Number), l.toNumber = .ok j → ∀ u,
    (if j.toIndex < i then v.toList[j.toIndex]? else v.toList[j.toIndex + 1]?) = some u →
    Exchanges (do run .delete; push l; run .get) [v, k] [u]

/-- **Editing a list at an index obeys the laws of sequences**, and fails exactly
where there is no such place. -/
theorem editing_laws {k : Value} {n : Number} (hk : k.toNumber = .ok n) (v w : Value)
    (evaluate : String → Routine Unit) (bound : Nat) :
    EditingLaws (fun op => execute evaluate bound op.name) v k w n.toIndex := by
  have hget := Operator.edit_get hk v
  have hset := Operator.edit_set hk v w
  have hdelete := Operator.edit_delete hk v
  have hinsert := Operator.edit_insert hk v w
  have hset' := fun hfits => hset.exchanges hfits evaluate bound
  have hdelete' := fun hfits => hdelete.exchanges hfits evaluate bound
  have hinsert' := fun hfits => hinsert.exchanges hfits evaluate bound
  constructor
  case get_refuses => exact fun m => (hget.refuses_iff m).trans Nat.not_lt
  case set_refuses => exact fun m => (hset.refuses_iff m).trans Nat.not_lt
  case delete_refuses => exact fun m => (hdelete.refuses_iff m).trans Nat.not_lt
  case insert_refuses => exact fun m => (hinsert.refuses_iff m).trans Nat.not_le
  case restored =>
    intro m edit hedit hrefuses
    simp only [List.mem_cons, List.not_mem_nil, or_false] at hedit
    rcases hedit with rfl | rfl | rfl | rfl
    · exact hget.restored ((hget.refuses_iff m).mp hrefuses) evaluate bound m
    · exact hset.restored ((hset.refuses_iff m).mp hrefuses) evaluate bound m
    · exact hdelete.restored ((hdelete.refuses_iff m).mp hrefuses) evaluate bound m
    · exact hinsert.restored ((hinsert.refuses_iff m).mp hrefuses) evaluate bound m
  case get_element => exact fun u hu => exchanges_get evaluate bound hk hu
  case set_length => exact fun hfits => ⟨_, hset' hfits, List.length_set⟩
  case set_get =>
    intro hfits
    apply (hset' hfits).then_get hk
    rw [List.getElem?_set_self hfits]
  case set_get_other =>
    intro hfits l j hl hne u hu
    refine ⟨exchanges_get evaluate bound hl hu, (hset' hfits).then_get hl ?_⟩
    rwa [List.getElem?_set_ne hne.symm]
  case insert_delete => exact fun hfits => exchanges_insert_delete hk hfits w
  case insert_append =>
    intro hend
    refine ⟨_, hinsert' hend.le, ?_⟩
    rw [hend, List.insertIdx_length_self]
    exact exchanges_append evaluate bound v w
  case insert_get =>
    intro hfits l j hl u hu
    apply (hinsert' hfits).then_get hl
    rw [getElem?_insertIdx_of_le hfits, hu]
  case delete_length => exact fun hfits => ⟨_, hdelete' hfits, List.length_eraseIdx_of_lt hfits⟩
  case delete_get =>
    intro hfits l j hl u hu
    apply (hdelete' hfits).then_get hl
    rw [List.getElem?_eraseIdx, hu]

/-- The characters of a text, edited at an index below the first and at one beyond
the last: the one is taken for zero, the other is refused. -/
theorem editing_laws_infinite :
    let run (op : Operator) : Routine Unit := execute (evaluate 1) 1 op.name
    let v : Value := .text "ab"
    let below : Value := .number (.signed true .infinity)
    let beyond : Value := .number .infinity
    (below.toNumber = .ok (.signed true .infinity) ∧
      Exchanges (do run .set; push below; run .get) [v, below, .blank] [.blank] ∧
      Exchanges (do run .insert; push below; run .delete) [v, below, .blank] [.list v.toList]) ∧
    beyond.toNumber = .ok .infinity ∧ ∀ m, Operator.insert.Refuses [v, beyond, .blank] m := by
  intro run v below beyond
  have hlaws := editing_laws (k := below) rfl v .blank (evaluate 1) 1
  have hlaws' := editing_laws (k := beyond) rfl v .blank (evaluate 1) 1
  refine ⟨⟨rfl, hlaws.set_get (by decide), hlaws.insert_delete (by decide)⟩, rfl, fun m => ?_⟩
  rw [hlaws'.insert_refuses]
  decide +kernel

end ReversePolish
