/-
ReversePolish/Proofs/Collecting.lean

What lies above a depth of the stack, and the list literals that collect it.

A pop takes the top value as long as there is one, and a blank after that.  So
of a number of pops the first ones empty the stack and the others are missing
(`Stack.popMany_add`), whichever way the depth lies: above the top nothing is
taken, and below the bottom there is a blank for each step
(`Stack.popAbove_eq`).

A list literal notes how high the stack is and evaluates its body.  Its body
is evaluated as it would be by itself, because the note is only for the
operator.  Whatever the body does to the stack, the part above the noted
height becomes one list and the part below it stays (`evaluatesToken_list`).
-/
import ReversePolish.Proofs.Literal
import ReversePolish.Proofs.Recovery
import ReversePolish.Proofs.Underflow

namespace ReversePolish

open Routine

/-! ### Popping to a depth -/

namespace Stack

/-- Pops beyond the bottom of the stack give blanks, and each of them is
missing. -/
theorem popMany_add (s : Stack) (extra : Nat) :
    s.popMany (s.size + extra) = ⟨List.replicate extra .blank ++ s.toList, ⟨[]⟩, extra⟩ := by
  induction extra with
  | zero =>
    rw [Nat.add_zero, s.popMany_of_le (Nat.le_refl _), size, List.take_length, List.drop_length]
    rfl
  | succ extra ih =>
    have more : s.popMany (s.size + (extra + 1)) = (s.popMany (s.size + extra)).more := rfl
    rw [more, ih]
    rfl

/-- **Popping to a depth.**  The values above it come out with the lowest
first, the values below it stay, and a depth below the bottom costs a blank
for each step. -/
theorem popAbove_eq (s : Stack) (depth : Int) :
    s.popAbove depth =
      ⟨List.replicate (-depth).toNat .blank ++ s.toList.drop depth.toNat,
        .ofList (s.toList.take depth.toNat), (-depth).toNat⟩ := by
  rcases Int.le_total 0 depth with hdepth | hdepth
  · have hcount : ((s.size : Int) - depth).toNat = s.size - depth.toNat := by omega
    have hnone : (-depth).toNat = 0 := by omega
    have htaken := s.popMany_of_le (Nat.sub_le s.size depth.toNat)
    rw [popAbove, hcount, htaken, hnone, toList, ofList, List.drop_reverse, List.take_reverse,
      List.reverse_reverse]
    rfl
  · have hcount : ((s.size : Int) - depth).toNat = s.size + (-depth).toNat := by omega
    have hnone : depth.toNat = 0 := by omega
    rw [popAbove, hcount, popMany_add, hnone, List.drop_zero, List.take_zero]
    rfl

end Stack

/-- The same error, reported several times. -/
theorem runOn_reports (n : Nat) (message : String) (m : Machine) :
    runOn ((List.replicate n message).forM report) m =
      (.ok (), m.withHistory (m.history ++ Array.replicate n (.recovered message))) := by
  induction n generalizing m with
  | zero =>
    rw [Array.replicate_zero, Array.append_empty]
    rfl
  | succ n ih =>
    have hfirst : runOn (report message) m =
        (.ok (), m.withHistory (m.history.push (.recovered message))) := rfl
    have hcons : (List.replicate (n + 1) message).forM report =
        (do report message; (List.replicate n message).forM report) := rfl
    rw [hcons, runOn_bind_of_ok hfirst, ih, Machine.history_withHistory,
      History.push_append_replicate]
    rfl

/-- Popping to a depth reports each missing value. -/
theorem runOn_popAbove_eq (m : Machine) (depth : Int) :
    runOn (popAbove depth) m =
      (.ok (List.replicate (-depth).toNat .blank ++ m.stack.toList.drop depth.toNat),
        { m with
          stack := .ofList (m.stack.toList.take depth.toNat)
          history := m.history ++ Array.replicate (-depth).toNat .underflow }) := by
  simp only [popAbove, runOn_bind, runOn_get, runOn_modify, Stack.popAbove_eq, runOn_reports]
  rfl

/-! ### List literals -/

theorem Token.ofText_list (body : String) : ofText ("[" ++ body ++ "]") = .list body := by
  have hchars : ("[" ++ body ++ "]").toList = '[' :: body.toList ++ [']'] := by simp
  rw [ofText_of_mark (by decide) hchars, inside?_eq_none hchars (by decide),
    inside?_of_toList hchars, String.ofList_toList]

/-- The machine `m'` after a list literal that was met at a height `depth` of
the stack, and whose body has left the machine `left`. -/
structure Collected (depth : Nat) (left m' : Machine) : Prop where
  /-- What is above the old height is one list now. -/
  stack : m'.stack.toList =
    left.stack.toList.take depth ++ [.list (left.stack.toList.drop depth)]
  store : m'.store = left.store
  host : m'.host = left.host
  /-- No line is added to the log. -/
  log : m'.history.log = left.history.log
  output : m'.history.output = left.history.output
  prompts : m'.history.prompts = left.history.prompts
  sleeps : m'.history.sleeps = left.history.sleeps

/-- The upper values of a stack as one list. -/
theorem Stack.toList_gather (s : Stack) (depth : Nat) :
    (s.gather (s.size - depth)).toList = s.toList.take depth ++ [.list (s.toList.drop depth)] := by
  simp only [gather, toList, size, List.reverse_cons, List.take_reverse, List.drop_reverse]

/-- If the body has come down to the old height or below, the list is
empty. -/
theorem Collected.stack_of_le {depth : Nat} {left m' : Machine} (h : Collected depth left m')
    (hlow : left.stack.size ≤ depth) : m'.stack.toList = left.stack.toList ++ [.list []] := by
  have hlength : left.stack.toList.length ≤ depth := by
    rw [Stack.toList, List.length_reverse]
    exact hlow
  rw [h.stack, List.take_of_length_le hlength, List.drop_of_length_le hlength]

/-- From a body that ends normally to the list literal. -/
theorem collected_of_run {bound : Nat} {body : String} {m left : Machine}
    (hbody : runOn (evaluate bound body) m = (.ok (), left)) (token : String) :
    ∃ m', runOn (collect (evaluate bound) token body) m = (.ok (), m') ∧
      Collected m.stack.size left m' := by
  have happends := evaluate_appends bound body
  -- the body is evaluated over a history with one note more
  let noted : History := m.history.push (.listEntered token m.stack.size)
  have hentered : runOn (evaluate bound body) (m.entering token) =
      (.ok (), left.withHistory (noted ++ m.added left)) := happends.run_over hbody noted
  have hgrown : left.history = m.history ++ m.added left := happends.history_eq hbody
  refine ⟨_, runOn_collect_of_ok hentered, ?_⟩
  constructor
  case stack => exact left.stack.toList_gather m.stack.size
  case store => rfl
  case host => rfl
  all_goals
    rw [hgrown]
    simp [noted, Event.log, Event.output, Event.prompt?, Event.sleep?]

/-- **List literals collect by depth.**  If a body ends normally by itself,
then so does the list literal with this body.  Of the stack that the body
leaves, the part below the old height stays and the part above it becomes one
list, which is empty if the body has come down to that height or below.
Nothing else happens, and nothing is logged.

More generally, popping to any depth takes what is above it with the lowest
first, a depth below the bottom costs a blank for each step, and each of these
is reported. -/
theorem evaluatesToken_list :
    (∀ (body : String) (m left : Machine), Evaluates body m (.ok ()) left →
      ∃ m', EvaluatesToken ("[" ++ body ++ "]") m (.ok ()) m' ∧ Collected m.stack.size left m' ∧
        (left.stack.size ≤ m.stack.size →
          m'.stack.toList = left.stack.toList ++ [.list []])) ∧
    ∀ (m : Machine) (mark : Int),
      runOn (popAbove mark) m =
        (.ok (List.replicate (max 0 (-mark)).toNat .blank ++
            m.stack.toList.drop (max 0 mark).toNat),
          { m with
            stack := .ofList (m.stack.toList.take (max 0 mark).toNat)
            history := m.history ++
              Array.replicate (max 0 (-mark)).toNat (.recovered underflowMessage) }) := by
  constructor
  · intro body m left h
    obtain ⟨-, bound, hbody⟩ := h
    obtain ⟨m', hrun, hcollected⟩ := collected_of_run hbody ("[" ++ body ++ "]")
    refine ⟨m', ⟨nofun, bound, ?_⟩, hcollected, hcollected.stack_of_le⟩
    rw [evaluateToken, Token.ofText_list]
    exact hrun
  · intro m mark
    have hbelow : (max 0 (-mark)).toNat = (-mark).toNat := by omega
    have habove : (max 0 mark).toNat = mark.toNat := by omega
    rw [hbelow, habove]
    exact runOn_popAbove_eq m mark

/-- A body that takes both values from below the height at which it started
and leaves a list. -/
theorem evaluatesToken_list_low :
    let m : Machine := { Machine.bare with stack := .ofList [.truth true, .truth false] }
    let left := (runOn (evaluate 3 "pop pop [(a)]") m).2
    ∃ m', Evaluates "pop pop [(a)]" m (.ok ()) left ∧ left.stack.display = "Stack[ [(a)] ]" ∧
      EvaluatesToken "[pop pop [(a)]]" m (.ok ()) m' ∧
      m'.stack.toList = left.stack.toList ++ [.list []] ∧
      m'.history.log = left.history.log := by
  intro m left
  have hends : Evaluates "pop pop [(a)]" m (.ok ()) left :=
    ⟨nofun, 3, runOn_eq_ok (by decide +kernel)⟩
  obtain ⟨m', htoken, hcollected, hlow⟩ := evaluatesToken_list.1 "pop pop [(a)]" m left hends
  have hsize : left.stack.size ≤ m.stack.size := by decide +kernel
  exact ⟨m', hends, by decide +kernel, htoken, hlow hsize, hcollected.log⟩

end ReversePolish
