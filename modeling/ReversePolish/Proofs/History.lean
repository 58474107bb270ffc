/-
ReversePolish/Proofs/History.lean

The views of a history, piece by piece.  Each channel of an extended history
is the channel of the old part followed by that of the new one, and what an
event adds to a channel stands in the channel as a whole.  `Machine.added` is
the part of the history that a run has added.
-/
import ReversePolish.Machine

namespace ReversePolish

/-- An event that shows at most in the log. -/
structure Event.Quiet (e : Event) : Prop where
  output : e.output = ""
  prompt : e.prompt? = none
  sleep : e.sleep? = none

namespace History

/-! ### Texts of two histories -/

theorem textOf_eq (view : Event → String) (h : History) :
    h.textOf view = String.join (h.toList.map view) := by
  rw [textOf, ← Array.foldl_toList, String.join_eq_foldl, List.foldl_map]

@[simp] theorem textOf_append (view : Event → String) (h added : History) :
    textOf view (h ++ added) = h.textOf view ++ added.textOf view := by
  apply String.toList_injective
  simp [textOf_eq]

@[simp] theorem output_append (h added : History) :
    output (h ++ added) = h.output ++ added.output := textOf_append ..

@[simp] theorem log_append (h added : History) : log (h ++ added) = h.log ++ added.log :=
  textOf_append ..

@[simp] theorem prompts_append (h added : History) :
    prompts (h ++ added) = h.prompts ++ added.prompts := by
  simp [prompts]

@[simp] theorem sleeps_append (h added : History) :
    sleeps (h ++ added) = h.sleeps ++ added.sleeps := by
  simp [sleeps]

@[simp] theorem textOf_singleton (view : Event → String) (e : Event) :
    textOf view #[e] = view e := by
  simp [textOf]

@[simp] theorem textOf_push (view : Event → String) (h : History) (e : Event) :
    textOf view (h.push e) = h.textOf view ++ view e := by
  rw [Array.push_eq_append, textOf_append, textOf_singleton]

@[simp] theorem output_push (h : History) (e : Event) :
    output (h.push e) = h.output ++ e.output := textOf_push ..

@[simp] theorem log_push (h : History) (e : Event) : log (h.push e) = h.log ++ e.log :=
  textOf_push ..

@[simp] theorem prompts_push (h : History) (e : Event) :
    prompts (h.push e) = h.prompts ++ e.prompt?.toList := by
  rw [Array.push_eq_append, prompts_append]
  cases hprompt : e.prompt? <;> simp [prompts, hprompt]

@[simp] theorem sleeps_push (h : History) (e : Event) :
    sleeps (h.push e) = h.sleeps ++ e.sleep?.toList := by
  rw [Array.push_eq_append, sleeps_append]
  cases hsleep : e.sleep? <;> simp [sleeps, hsleep]

/-- Events that add nothing leave a channel empty. -/
theorem textOf_eq_empty {view : Event → String} {h : History}
    (hview : ∀ e ∈ h.toList, view e = "") : h.textOf view = "" := by
  rw [textOf_eq, List.map_congr_left hview]
  induction h.toList with
  | nil => rfl
  | cons e events ih => exact ih

@[simp] theorem since_append (h added : History) : since (h ++ added) h.size = added := by
  simp [since]

/-- The part of a text that an event adds stands in it unchanged. -/
theorem infix_textOf {view : Event → String} {h : History} {e : Event} (he : e ∈ h.toList) :
    (view e).toList <:+: (h.textOf view).toList := by
  rw [textOf_eq, String.toList_join, List.flatMap_map]
  obtain ⟨before, after, hsplit⟩ := List.append_of_mem he
  rw [hsplit, List.flatMap_append, List.flatMap_cons]
  exact ⟨_, _, List.append_assoc ..⟩

/-! ### Events for the log -/

theorem output_of_quiet {h : History} (hquiet : ∀ e ∈ h, e.Quiet) : h.output = "" :=
  textOf_eq_empty fun e he => (hquiet e (Array.mem_toList_iff.mp he)).output

theorem prompts_of_quiet {h : History} (hquiet : ∀ e ∈ h, e.Quiet) : h.prompts = [] :=
  List.filterMap_eq_nil_iff.mpr fun e he => (hquiet e (Array.mem_toList_iff.mp he)).prompt

theorem sleeps_of_quiet {h : History} (hquiet : ∀ e ∈ h, e.Quiet) : h.sleeps = [] :=
  List.filterMap_eq_nil_iff.mpr fun e he => (hquiet e (Array.mem_toList_iff.mp he)).sleep

end History

/-- What a run has added to the history. -/
def Machine.added (before after : Machine) : History :=
  after.history.since before.history.size

theorem Machine.added_eq {before after : Machine} {added : History}
    (h : after.history = before.history ++ added) : before.added after = added := by
  rw [Machine.added, h, History.since_append]

end ReversePolish
