/-
ReversePolish/Proofs/Channels.lean

The channels are written and never read.  A run on any machine does what it
does on the same machine with nothing in its channels, and adds to each
channel what it shows there (`Continues`).  This holds however the run ends.

A session therefore needs no bookkeeping of its own.  It may be used for any
number of steps, some of which end early and leave their part in the channels:
the transcript of a run that succeeds is what this very run has added
(`Session.channels_append_only`).
-/
import ReversePolish.Proofs.Sequencing

namespace ReversePolish

open Routine

/-! ### Runs from empty channels -/

/-- The machine with nothing in its channels. -/
def Machine.cleared (m : Machine) : Machine := m.withHistory #[]

/-- A run that started on the history `before` compared with the same run
from empty channels. -/
structure Continues {α : Type} (before : History) (run fresh : Except Interrupt α × Machine) :
    Prop where
  outcome : run.1 = fresh.1
  stack : run.2.stack = fresh.2.stack
  store : run.2.store = fresh.2.store
  host : run.2.host = fresh.2.host
  output : run.2.history.output = before.output ++ fresh.2.history.output
  log : run.2.history.log = before.log ++ fresh.2.history.log
  prompts : run.2.history.prompts = before.prompts ++ fresh.2.history.prompts
  sleeps : run.2.history.sleeps = before.sleeps ++ fresh.2.history.sleeps

theorem Routine.Appends.continues {α : Type} {r : Routine α} (h : Appends r) (m : Machine) :
    Continues m.history (runOn r m) (runOn r m.cleared) := by
  obtain ⟨outcome, m', added, hrun⟩ := h m
  have hm := hrun m.history
  rw [Machine.withHistory_self] at hm
  rw [hm, Machine.cleared, hrun #[], Array.empty_append]
  exact ⟨rfl, rfl, rfl, rfl, History.output_append .., History.log_append ..,
    History.prompts_append .., History.sleeps_append ..⟩

/-! ### Sessions -/

namespace Session

/-- The uses of a session: its beginning, preludes, and runs. -/
inductive Step where
  | start (prelude : Prelude)
  | loadPrelude
  | evaluatePrelude (code : String)
  | run (code : String)

def Step.routine (s : Session) : Step → Routine Unit
  | start prelude => s.start prelude
  | loadPrelude => s.loadPrelude
  | evaluatePrelude code => s.evaluatePrelude code
  | run code => do let _ ← s.run code

/-- The machine after some steps.  A step that has ended early does not keep
the next one from being taken. -/
def machineAfter (s : Session) : List Step → Machine → Machine
  | [], m => m
  | step :: steps, m => s.machineAfter steps (runOn (step.routine s) m).2

/-- The transcript of a run is what the code shows from empty channels, and
the channels have grown by just that. -/
theorem transcript_of_run {s : Session} {code : String} {m m' : Machine} {transcript : Transcript}
    (happends : Appends (s.evaluator code)) (h : runOn (s.run code) m = (.ok transcript, m')) :
    transcript = transcriptOf (runOn (s.evaluator code) m.cleared).2.history ∧
      m'.history.output = m.history.output ++ transcript.output ∧
      m'.history.log = m.history.log ++ transcript.log := by
  rcases hrun : runOn (s.evaluator code) m with ⟨interrupt | ⟨⟩, m₁⟩
  · rw [runOn_run_of_error hrun] at h
    cases h
  · rw [runOn_run_of_ok hrun] at h
    obtain ⟨hresult, rfl⟩ := Prod.mk.inj h
    obtain rfl := Except.ok.inj hresult
    have hfresh := happends.run_over hrun #[]
    rw [Array.empty_append] at hfresh
    rw [Machine.cleared, hfresh, happends.history_eq hrun]
    refine ⟨?_, History.output_append .., History.log_append ..⟩
    rw [Machine.added_eq (happends.history_eq hrun)]
    rfl

/-- **The channels are append-only and never read back.**  An evaluation adds
the same texts to the channels whatever is in them, and ends in the same way
with the same machine.  So, whatever steps have been taken before and however
they have ended, a run that succeeds returns the texts it has added itself. -/
theorem channels_append_only (settings : Settings) (folder : Folder) (bound : Nat)
    (m : Machine) :
    let s : Session := { settings, folder, evaluator := evaluate bound }
    (∀ source, Continues m.history (runOn (evaluate bound source) m)
      (runOn (evaluate bound source) m.cleared)) ∧
    ∀ steps code transcript m', runOn (s.run code) (s.machineAfter steps m) = (.ok transcript, m') →
      transcript =
        transcriptOf (runOn (evaluate bound code) (s.machineAfter steps m).cleared).2.history ∧
      m'.history.output = (s.machineAfter steps m).history.output ++ transcript.output ∧
      m'.history.log = (s.machineAfter steps m).history.log ++ transcript.log := by
  intro s
  refine ⟨fun source => (evaluate_appends bound source).continues m, ?_⟩
  intro steps code transcript m' hrun
  exact transcript_of_run (s := s) (evaluate_appends bound code) hrun

/-- A run after a prelude that ends with a fault and a run that prints and
then leaves. -/
theorem channels_append_only_exit :
    let s : Session := { settings := .ofTexts none none none, evaluator := evaluate 3 }
    let m : Machine := { Machine.bare with history := #[.printed "old"] }
    let m₁ := s.machineAfter [.evaluatePrelude "ınf", .run "(a) print 1 exit"] m
    ∃ transcript m', runOn (s.run "(b) print") m₁ = (.ok transcript, m') ∧
      m'.history.output = m₁.history.output ++ transcript.output := by
  intro s m m₁
  have hsucceeds : (runOn (s.run "(b) print") m₁).1.toBool = true := by decide +kernel
  rcases hrun : runOn (s.run "(b) print") m₁ with ⟨interrupt | transcript, m'⟩
  · rw [hrun] at hsucceeds
    cases hsucceeds
  · exact ⟨transcript, m', rfl, ((channels_append_only _ _ 3 m).2 _ _ _ _ hrun).2.1⟩

end Session

end ReversePolish
