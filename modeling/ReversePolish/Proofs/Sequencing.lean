/-
ReversePolish/Proofs/Sequencing.lean

One code after the other.  A session keeps its stack and its variables between
runs, so a program may be cut at any space of the outermost level and its two
parts run one after the other:

* the tokens of the whole are those of the first part followed by those of the
  second (`tokenize_append`), as long as the first part leaves nothing open;
* between the parts the log gets the closing line of the first evaluation, and
  an evaluation does not read the log (`evaluate_appends`).

So the two runs end as the one run of both parts does, and only that closing
line tells them apart.
-/
import ReversePolish.Proofs.Appending
import ReversePolish.Proofs.Nesting
import ReversePolish.Session

namespace ReversePolish

open Routine

/-! ### Evaluations -/

section Evaluations

variable {p : String}

/-- An evaluation of both parts goes on with the tokens of the second. -/
theorem evaluate_succ_append (hp : Nesting.Closed p.toList) (q : String) (bound : Nat) :
    evaluate (bound + 1) (p ++ " " ++ q) = (do
      (tokenize p).forM (visitToken (evaluate bound) bound)
      evaluate (bound + 1) q) := by
  have hforM : ∀ (first second : List String) (step : String → Routine Unit),
      (first ++ second).forM step = (do first.forM step; second.forM step) := fun _ _ _ =>
    List.forM_append
  simp only [evaluate, tokenize_append hp, hforM, bind_assoc]

/-- Either the first part ends early, and with it every program that begins with
it, or each of them goes on where the first part has ended, but for the
closing line. -/
theorem evaluate_first (hp : Nesting.Closed p.toList) (bound : Nat) (m : Machine) :
    (∃ interrupt m₁, runOn (evaluate bound p) m = (.error interrupt, m₁) ∧
      ∀ q, runOn (evaluate bound (p ++ " " ++ q)) m = (.error interrupt, m₁)) ∨
    (∃ m₁ added, m₁.history = m.history ++ added ∧
      runOn (evaluate bound p) m =
        (.ok (), m₁.withHistory (m₁.history.push (.settled m₁.stack))) ∧
      ∀ q, runOn (evaluate bound (p ++ " " ++ q)) m = runOn (evaluate bound q) m₁) := by
  cases bound with
  | zero => exact Or.inl ⟨.exhausted, m, rfl, fun _ => rfl⟩ -- none of them begins
  | succ bound =>
    have happends : Appends ((tokenize p).forM (visitToken (evaluate bound) bound)) := by
      have hvisit : ∀ token,
          Assembled (fun _ => False) (visitToken (evaluate bound) bound token) := fun token =>
        visitToken_assembled (evaluate_assembled bound) bound
      exact (Assembled.forM hvisit (tokenize p)).appends
    -- whatever follows, the tokens of the first part are visited on `m`
    rw [evaluate]
    simp only [evaluate_succ_append hp _ bound]
    rcases hrun : runOn ((tokenize p).forM (visitToken (evaluate bound) bound)) m with
      ⟨interrupt | ⟨⟩, m₁⟩
    · exact Or.inl ⟨interrupt, m₁, runOn_bind_of_error hrun _, fun _ => runOn_bind_of_error hrun _⟩
    · refine Or.inr ⟨m₁, m.added m₁, happends.history_eq hrun, ?_, fun _ => runOn_bind_of_ok hrun _⟩
      rw [runOn_bind_of_ok hrun]
      rfl

theorem evaluate_append (hp : Nesting.Closed p.toList) (q : String) (bound : Nat) (m : Machine) :
    (∃ interrupt m₁, runOn (evaluate bound p) m = (.error interrupt, m₁) ∧
      runOn (evaluate bound (p ++ " " ++ q)) m = (.error interrupt, m₁)) ∨
    (∃ m₁ added, m₁.history = m.history ++ added ∧
      runOn (evaluate bound p) m =
        (.ok (), m₁.withHistory (m₁.history.push (.settled m₁.stack))) ∧
      runOn (evaluate bound (p ++ " " ++ q)) m = runOn (evaluate bound q) m₁) := by
  rcases evaluate_first hp bound m with ⟨interrupt, m₁, hfirst, hboth⟩ |
    ⟨m₁, added, hgrown, hfirst, hboth⟩
  · exact Or.inl ⟨interrupt, m₁, hfirst, hboth q⟩
  · exact Or.inr ⟨m₁, added, hgrown, hfirst, hboth q⟩

end Evaluations

/-! ### Runs -/

namespace Session

variable {s : Session} {m m' : Machine} {code : String}

/-- The texts that a stretch of history shows. -/
def transcriptOf (h : History) : Transcript := { output := h.output, log := h.log }

theorem runOn_run_of_ok (h : runOn (s.evaluator code) m = (.ok (), m')) :
    runOn (s.run code) m = (.ok (transcriptOf (m.added m')), m') := by
  simp only [run, runOn_bind_of_ok (runOn_get m), runOn_bind_of_ok h]
  rfl

theorem runOn_run_of_error {interrupt : Interrupt}
    (h : runOn (s.evaluator code) m = (.error interrupt, m')) :
    runOn (s.run code) m = (.error interrupt, m') := by
  simp only [run, runOn_bind_of_ok (runOn_get m), runOn_bind_of_error h]

/-- Run two codes one after the other. -/
def runBoth (s : Session) (p q : String) : Routine (Transcript × Transcript) := do
  let first ← s.run p
  let second ← s.run q
  return (first, second)

section Both

variable {p q : String} {m₁ m₂ : Machine} {first second : Transcript} {interrupt : Interrupt}

theorem runOn_runBoth_of_ok (hfirst : runOn (s.run p) m = (.ok first, m₁))
    (hsecond : runOn (s.run q) m₁ = (.ok second, m₂)) :
    runOn (s.runBoth p q) m = (.ok (first, second), m₂) := by
  rw [runBoth, runOn_bind_of_ok hfirst, runOn_bind_of_ok hsecond, runOn_pure]

/-- The second code is not run if the first ends early. -/
theorem runOn_runBoth_of_first_error (hfirst : runOn (s.run p) m = (.error interrupt, m₁))
    (q : String) : runOn (s.runBoth p q) m = (.error interrupt, m₁) :=
  runOn_bind_of_error hfirst _

theorem runOn_runBoth_of_second_error (hfirst : runOn (s.run p) m = (.ok first, m₁))
    (hsecond : runOn (s.run q) m₁ = (.error interrupt, m₂)) :
    runOn (s.runBoth p q) m = (.error interrupt, m₂) := by
  rw [runBoth, runOn_bind_of_ok hfirst, runOn_bind_of_error hsecond]

end Both

/-- How two runs and a run of both codes agree.  `between` is the stack after
the first of the two runs. -/
structure Agree (between : Stack) (parts : Except Interrupt (Transcript × Transcript) × Machine)
    (whole : Except Interrupt Transcript × Machine) : Prop where
  outcome : parts.1.map (fun _ => ()) = whole.1.map (fun _ => ())
  stack : parts.2.stack = whole.2.stack
  store : parts.2.store = whole.2.store
  host : parts.2.host = whole.2.host
  output : parts.2.history.output = whole.2.history.output
  /-- If both end normally, the log of the whole is that of the parts without
  the closing lines of the first. -/
  transcript : ∀ first second both, parts.1 = .ok (first, second) → whole.1 = .ok both →
    both.output = first.output ++ second.output ∧
    ∃ front, first.log = front ++ between.display ++ "\n\n" ∧ both.log = front ++ second.log

/-- The second run starts where the first has ended, but for the closing
lines. -/
theorem agree_of_ok {p q both : String} {m₁ : Machine} {added : History}
    (happends : Appends (s.evaluator q)) (hgrown : m₁.history = m.history ++ added)
    (hfirst : runOn (s.evaluator p) m =
      (.ok (), m₁.withHistory (m₁.history.push (.settled m₁.stack))))
    (hboth : runOn (s.evaluator both) m = runOn (s.evaluator q) m₁) :
    Agree m₁.stack (runOn (s.runBoth p q) m) (runOn (s.run both) m) := by
  have hclosing : ∀ h : History, h.push (.settled m₁.stack) = h ++ #[.settled m₁.stack] := fun _ =>
    Array.push_eq_append
  rw [hclosing, hgrown, Array.append_assoc] at hfirst
  have hrunFirst := runOn_run_of_ok hfirst
  rw [Machine.added_eq rfl] at hrunFirst
  rcases hrun : runOn (s.evaluator q) m₁ with ⟨outcome, m₂⟩
  have hgrown₂ : m₂.history = m.history ++ (added ++ m₁.added m₂) := by
    rw [happends.history_eq hrun, hgrown, Array.append_assoc]
  have hsecond := happends.run_over hrun (m.history ++ (added ++ #[.settled m₁.stack]))
  have houtput : ((m.history ++ (added ++ #[.settled m₁.stack])) ++ m₁.added m₂ : History).output =
      m₂.history.output := by
    rw [hgrown₂]
    simp [Event.output]
  rw [hrun] at hboth
  cases outcome with
  | error interrupt =>
    rw [runOn_runBoth_of_second_error hrunFirst (runOn_run_of_error hsecond),
      runOn_run_of_error hboth]
    exact ⟨rfl, rfl, rfl, rfl, houtput, nofun⟩
  | ok =>
    have hrunSecond := runOn_run_of_ok hsecond
    rw [Machine.added_eq rfl] at hrunSecond
    rw [runOn_runBoth_of_ok hrunFirst hrunSecond, runOn_run_of_ok hboth, Machine.added_eq hgrown₂]
    refine ⟨rfl, rfl, rfl, rfl, houtput, ?_⟩
    rintro first second both hparts hwhole
    obtain ⟨rfl, rfl⟩ := Prod.mk.inj (Except.ok.inj hparts)
    obtain rfl := Except.ok.inj hwhole
    refine ⟨?_, added.log, ?_, ?_⟩
    · simp [transcriptOf, Event.output]
    · simp [transcriptOf, Event.log, String.append_assoc]
    · exact History.log_append added (m₁.added m₂)

/-- Cutting a program at a space of the outermost level and running its parts
one after the other changes nothing but the closing lines in between. -/
theorem agree_append (settings : Settings) (folder : Folder) (bound : Nat) {p : String}
    (hp : Nesting.Closed p.toList) (q : String) (m : Machine) :
    let s : Session := { settings, folder, evaluator := evaluate bound }
    Agree (runOn (s.run p) m).2.stack (runOn (s.runBoth p q) m)
      (runOn (s.run (p ++ " " ++ q)) m) := by
  intro s
  rcases evaluate_append hp q bound m with ⟨interrupt, m₁, hfirst, hboth⟩ |
    ⟨m₁, added, hgrown, hfirst, hboth⟩
  · have hrunFirst : runOn (s.run p) m = (.error interrupt, m₁) := runOn_run_of_error hfirst
    have hrunBoth : runOn (s.run (p ++ " " ++ q)) m = (.error interrupt, m₁) :=
      runOn_run_of_error hboth
    rw [runOn_runBoth_of_first_error hrunFirst, hrunBoth]
    exact ⟨rfl, rfl, rfl, rfl, rfl, nofun⟩
  · have hagree := agree_of_ok (s := s) (evaluate_appends bound q) hgrown hfirst hboth
    rw [runOn_run_of_ok (s := s) hfirst]
    exact hagree

/-- A program cut between a list with a bracket in a text and a command. -/
theorem agree_append_list :
    Nesting.Closed "[1 (]) # #] len".toList ∧
      let s : Session := { settings := .ofTexts none none none, evaluator := evaluate 3 }
      let m : Machine := .bare
      Agree (runOn (s.run "[1 (]) # #] len") m).2.stack
        (runOn (s.runBoth "[1 (]) # #] len" "print exit") m)
        (runOn (s.run ("[1 (]) # #] len" ++ " " ++ "print exit")) m) :=
  ⟨by decide, agree_append _ _ 3 (by decide) _ _⟩

end Session

end ReversePolish
