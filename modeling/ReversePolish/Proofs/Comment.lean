/-
ReversePolish/Proofs/Comment.lean

Comments.  A text between two hash marks goes to the log and does nothing
else, with two exceptions.

* Parentheses and brackets count inside a comment too.  Only a text that
  leaves none of them open, or overclosed, ends with its second hash mark
  (`Remark`).
* Variables come before comments, so a comment that is spelled like a bound
  name is that variable.

Main result: a remark may be put between two parts of a program.  The program
then comes to the same end, and its log gets two more lines, after those of
the first part (`endAlike_remark`).
-/
import ReversePolish.Proofs.Quoting
import ReversePolish.Proofs.Sequencing

namespace ReversePolish

open Routine

/-! ### Remarks -/

/-- A text that makes a comment between two hash marks: it has none itself, and
after the first of them it leads back to the outermost depths. -/
structure Remark (c : String) : Prop where
  unhashed : '#' ∉ c.toList
  parens : (Nesting.after ⟨0, 0, true⟩ c.toList).parens = 0
  brackets : (Nesting.after ⟨0, 0, true⟩ c.toList).brackets = 0

/-- The token of a remark. -/
def remarkToken (c : String) : String := "#" ++ plain c ++ "#"

theorem toList_remarkToken (c : String) :
    (remarkToken c).toList = '#' :: (plain c).toList ++ ['#'] := by
  simp [remarkToken]

namespace Nesting

/-- Only a hash mark opens or ends a comment. -/
theorem hash_step {level : Nesting} {c : Char} (hc : c ≠ '#') :
    (level.step c).hash = level.hash := by
  unfold step
  split_ifs <;> rfl

/-- Inside a comment there is no space at the outermost level. -/
theorem within_hash {level : Nesting} {cs : List Char} (hlevel : level.hash = true)
    (hcs : '#' ∉ cs) : (level.after cs).hash = true ∧ level.Unbroken cs := by
  induction cs generalizing level with
  | nil => exact ⟨hlevel, trivial⟩
  | cons c cs ih =>
    obtain ⟨hc, hrest⟩ := not_or.mp (mt List.mem_cons.mpr hcs)
    have hstep : (level.step c).hash = true := (hash_step (Ne.symm hc)).trans hlevel
    have hinside : level ≠ outermost := by
      rintro rfl
      cases hlevel
    obtain ⟨hafter, hunbroken⟩ := ih hstep hrest
    exact ⟨hafter, fun hbreak => hinside hbreak.2, hunbroken⟩

end Nesting

/-- White characters do not matter. -/
theorem remark_plain {c : String} (h : Remark c) : Remark (plain c) where
  unhashed := by
    intro hmem
    rw [toList_plain] at hmem
    have hnone : c.toList.count '#' = 0 := List.count_eq_zero.mpr h.unhashed
    rw [← count_map_plainSpace (by decide)] at hnone
    exact List.count_eq_zero.mp hnone hmem
  parens := by
    rw [toList_plain, Nesting.after_map_plainSpace]
    exact h.parens
  brackets := by
    rw [toList_plain, Nesting.after_map_plainSpace]
    exact h.brackets

namespace Remark

variable {c : String}

/-- Between its hash marks a remark leads back to the outermost level, and no
space in it ends a token. -/
theorem enclosed (h : Remark c) :
    Nesting.Closed ('#' :: c.toList ++ ['#']) ∧
      Nesting.outermost.Unbroken ('#' :: c.toList ++ ['#']) := by
  have hopen : Nesting.outermost.step '#' = ⟨0, 0, true⟩ := rfl
  have hinside : (Nesting.mk 0 0 true).hash = true := rfl
  obtain ⟨hhash, hunbroken⟩ := Nesting.within_hash hinside h.unhashed
  have hback : Nesting.after ⟨0, 0, true⟩ c.toList = ⟨0, 0, true⟩ := by
    rcases hlevel : Nesting.after ⟨0, 0, true⟩ c.toList with ⟨parens, brackets, hash⟩
    have hparens := h.parens
    have hbrackets := h.brackets
    rw [hlevel] at hhash hparens hbrackets
    subst hhash hparens hbrackets
    rfl
  refine Nesting.between_marks ?_ ?_ ?_ (by decide) (by decide)
  · rw [hopen, hback]
  · rw [hopen]
    exact hunbroken
  · rfl

theorem closed (h : Remark c) : Nesting.Closed ("#" ++ c ++ "#").toList := by
  have hchars : ("#" ++ c ++ "#").toList = '#' :: c.toList ++ ['#'] := by simp
  rw [hchars]
  exact h.enclosed.1

/-- A remark is a single token, in plain spaces. -/
theorem tokenize_eq (h : Remark c) : tokenize ("#" ++ c ++ "#") = [remarkToken c] := by
  obtain ⟨hclosed, hunbroken⟩ := (remark_plain h).enclosed
  have hlone : Lone (remarkToken c) := by
    refine ⟨fun d hd => ?_, ⟨?_, ?_⟩, ?_⟩
    · -- every character is a hash mark or comes out of a plain text
      rw [toList_remarkToken, toList_plain] at hd
      simp only [List.cons_append, List.mem_cons, List.mem_append, List.mem_map, List.not_mem_nil,
        or_false] at hd
      rcases hd with rfl | ⟨d, -, rfl⟩ | rfl
      · rfl
      · exact plainSpace_plainSpace d
      · rfl
    · rw [toList_remarkToken]
      exact List.cons_ne_nil _ _
    · rw [toList_remarkToken]
      exact hunbroken
    · rw [toList_remarkToken]
      exact hclosed
  have hplain : plain ("#" ++ c ++ "#") = remarkToken c := by
    apply String.toList_injective
    rw [toList_remarkToken]
    simp [toList_plain, plainSpace]
  rw [← tokenize_plain, hplain, tokenize_of_lone hlone]

/-- The log shows the text of a remark without its hash marks. -/
theorem log_commented (h : Remark c) :
    (Event.commented (remarkToken c)).log = "Comment: " ++ plain c ++ "\n" := by
  have hfilter : (remarkToken c).toList.filter (· != '#') = (plain c).toList := by
    rw [toList_remarkToken]
    simp only [List.cons_append, List.filter_cons, List.filter_append, List.filter_nil,
      bne_self_eq_false, Bool.false_eq_true, if_false, List.append_nil, List.filter_eq_self]
    intro d hd
    exact bne_iff_ne.mpr fun heq => (remark_plain h).unhashed (heq ▸ hd)
  rw [Event.log, hfilter, String.ofList_toList]

end Remark

/-! ### Evaluation of a remark -/

/-- A token that begins with a hash mark is a word. -/
theorem Token.ofText_remarkToken (c : String) :
    Token.ofText (remarkToken c) = .word (remarkToken c) := by
  have hchars := toList_remarkToken c
  rw [List.cons_append] at hchars
  rw [ofText_of_mark (by decide) hchars, inside?_eq_none hchars (by decide),
    inside?_eq_none hchars (by decide)]

/-- What a remark adds to the history. -/
def remarkEvents (stack : Stack) (c : String) : History :=
  #[.traced stack (remarkToken c), .commented (remarkToken c)]

/-- The machine after a remark. -/
def Machine.remarked (m : Machine) (c : String) : Machine :=
  m.withHistory (m.history ++ remarkEvents m.stack c)

/-- The log gets the trace of a remark, and its text. -/
theorem Remark.log_events {c : String} (h : Remark c) (stack : Stack) :
    (remarkEvents stack c).log = stack.display ++ " <- #" ++ plain c ++ "#\n" ++ "Comment: " ++
      plain c ++ "\n" := by
  have htrace : (Event.traced stack (remarkToken c)).log =
      stack.display ++ " <- #" ++ plain c ++ "#\n" := by
    apply String.toList_injective
    simp [Event.log, remarkToken]
  have hlog : (remarkEvents stack c).log =
      (Event.traced stack (remarkToken c)).log ++ (Event.commented (remarkToken c)).log := by
    simp [remarkEvents, History.log, History.textOf]
  rw [hlog, htrace, h.log_commented]
  simp only [String.append_assoc]

section Remarked

variable {c : String} {m : Machine}

theorem runOn_visitToken_remark (hunbound : m.store.lookup? (remarkToken c) = none) (bound : Nat) :
    runOn (visitToken (evaluate bound) bound (remarkToken c)) m = (.ok (), m.remarked c) := by
  have hhash : '#' ∈ (remarkToken c).toList := by
    rw [toList_remarkToken]
    exact List.mem_cons_self
  have hlookup : (m.tracing (remarkToken c)).store.lookup? (remarkToken c) = none := hunbound
  have hhistory : (m.history.push (.traced m.stack (remarkToken c))).push
      (.commented (remarkToken c)) = m.history ++ remarkEvents m.stack c := by
    apply Array.toList_inj.mp
    simp [remarkEvents]
  rw [runOn_visitToken, evaluateToken, Token.ofText_remarkToken]
  show runOn (evaluateWord (evaluate bound) bound (remarkToken c)) _ = _
  rw [evaluateWord, runOn_bind_of_ok (runOn_get _), hlookup]
  dsimp only
  rw [if_pos hhash]
  exact congrArg (fun h => (Except.ok (), m.withHistory h)) hhistory

/-- A program that begins with a remark does what the rest of it does, after
two more events. -/
theorem evaluate_remark (h : Remark c) (hunbound : m.store.lookup? (remarkToken c) = none)
    (q : String) (bound : Nat) :
    runOn (evaluate (bound + 1) ("#" ++ c ++ "#" ++ " " ++ q)) m =
      runOn (evaluate (bound + 1) q) (m.remarked c) := by
  have hfirst : runOn ([remarkToken c].forM (visitToken (evaluate bound) bound)) m =
      (.ok (), m.remarked c) := by
    have hsingle : [remarkToken c].forM (visitToken (evaluate bound) bound) =
        (do visitToken (evaluate bound) bound (remarkToken c); pure ()) := rfl
    rw [hsingle, runOn_bind_of_ok (runOn_visitToken_remark hunbound bound), runOn_pure]
  rw [evaluate_succ_append h.closed q bound, h.tokenize_eq]
  exact runOn_bind_of_ok hfirst _

end Remarked

/-! ### A remark between two parts -/

section Between

variable {p c : String} {m : Machine}

/-- Both programs run their first part.  If it ends early they end with it;
otherwise both go on with the second part, one of them after the remark. -/
theorem evaluate_between (hp : Nesting.Closed p.toList) (hc : Remark c) (q : String)
    (hunbound : ∀ m₁, Evaluates p m (.ok ()) m₁ → m₁.store.lookup? (remarkToken c) = none)
    (bound : Nat) :
    (∃ interrupt m₁, runOn (evaluate bound p) m = (.error interrupt, m₁) ∧
      runOn (evaluate bound (p ++ " " ++ q)) m = (.error interrupt, m₁) ∧
      runOn (evaluate bound (p ++ " #" ++ c ++ "# " ++ q)) m = (.error interrupt, m₁)) ∨
    (∃ m₁ added, m₁.history = m.history ++ added ∧
      runOn (evaluate bound p) m =
        (.ok (), m₁.withHistory (m₁.history.push (.settled m₁.stack))) ∧
      runOn (evaluate bound (p ++ " " ++ q)) m = runOn (evaluate bound q) m₁ ∧
      runOn (evaluate bound (p ++ " #" ++ c ++ "# " ++ q)) m =
        runOn (evaluate bound q) (m₁.remarked c)) := by
  have hsource : p ++ " #" ++ c ++ "# " ++ q = p ++ " " ++ ("#" ++ c ++ "#" ++ " " ++ q) := by
    apply String.toList_injective
    simp
  rw [hsource]
  rcases evaluate_first hp bound m with ⟨interrupt, m₁, hfirst, hwhole⟩ |
    ⟨m₁, added, hgrown, hfirst, hwhole⟩
  · exact Or.inl ⟨interrupt, m₁, hfirst, hwhole q, hwhole _⟩
  · refine Or.inr ⟨m₁, added, hgrown, hfirst, hwhole q, ?_⟩
    have hfree := hunbound _ ⟨nofun, bound, hfirst⟩
    rw [Machine.store_withHistory] at hfree
    cases bound with
    | zero => cases hfirst -- nothing ends normally with no evaluation at all
    | succ bound => rw [hwhole, evaluate_remark hc hfree]

/-- A run from the machine after a remark is the run without it, with two more
events before its own. -/
theorem runOn_remarked {q : String} {bound : Nat} {outcome : Except Interrupt Unit} {m₂ : Machine}
    (hrun : runOn (evaluate bound q) m = (outcome, m₂)) :
    runOn (evaluate bound q) (m.remarked c) =
      (outcome, m₂.withHistory (m.history ++ remarkEvents m.stack c ++ m.added m₂)) :=
  (evaluate_appends bound q).run_over hrun _

theorem quiet_remarkEvents (stack : Stack) (c : String) : ∀ e ∈ remarkEvents stack c, e.Quiet := by
  intro e he
  simp only [remarkEvents, List.mem_toArray, List.mem_cons, List.not_mem_nil, or_false] at he
  rcases he with rfl | rfl
  · exact ⟨rfl, rfl, rfl⟩
  · exact ⟨rfl, rfl, rfl⟩

theorem endAlike_between (hp : Nesting.Closed p.toList) (hc : Remark c) (q : String)
    (hunbound : ∀ m₁, Evaluates p m (.ok ()) m₁ → m₁.store.lookup? (remarkToken c) = none) :
    EndAlike m (p ++ " #" ++ c ++ "# " ++ q) (p ++ " " ++ q) := by
  refine .of_runs 0 fun bound outcome m₂ hrun => ?_
  rcases evaluate_between hp hc q hunbound bound with ⟨interrupt, m₁, -, hwithout, hwith⟩ |
    ⟨m₁, added, -, -, hwithout, hwith⟩
  · obtain ⟨rfl, rfl⟩ := Prod.mk.inj (hrun.symm.trans hwithout)
    exact ⟨m₂, hwith, ⟨rfl, rfl, rfl, rfl, rfl, rfl⟩⟩
  · rw [hwithout] at hrun
    refine ⟨_, hwith.trans (runOn_remarked hrun), ?_⟩
    have hnone : ∀ e ∈ (#[] : History), e.Quiet := by simp
    have halike := Machine.alike_withHistory ((evaluate_appends bound q).history_eq hrun)
      (quiet_remarkEvents m₁.stack c) hnone
    rwa [Array.append_empty] at halike

end Between

/-- **Comments are transparent.**  Put a remark between two parts of a program,
the first of which leaves nothing open, and let no variable be spelled like it
when the first part has ended.  The program comes to an end exactly if it did
so without the remark, and then the ends are alike.  If the first part ends
normally, the history is the old one with two events put in after those of the
first part: the trace of the remark, and the remark itself without its hash
marks. -/
theorem endAlike_remark {p c : String} (hp : Nesting.Closed p.toList) (hc : Remark c) (q : String)
    (m : Machine)
    (hunbound : ∀ m₁, Evaluates p m (.ok ()) m₁ → m₁.store.lookup? (remarkToken c) = none) :
    EndAlike m (p ++ " #" ++ c ++ "# " ++ q) (p ++ " " ++ q) ∧
    ∀ m₁ m₂ m₃ outcome₂ outcome₃, Evaluates p m (.ok ()) m₁ →
      Evaluates (p ++ " " ++ q) m outcome₂ m₂ →
      Evaluates (p ++ " #" ++ c ++ "# " ++ q) m outcome₃ m₃ →
      ∃ first rest : History,
        m.added m₁ = first.push (.settled m₁.stack) ∧
        m.added m₂ = first ++ rest ∧
        m.added m₃ = first ++ #[.traced m₁.stack (remarkToken c), .commented (remarkToken c)] ++
          rest ∧
        (m.added m₂).log = first.log ++ rest.log ∧
        (m.added m₃).log = first.log ++
          (m₁.stack.display ++ " <- #" ++ plain c ++ "#\n" ++ "Comment: " ++ plain c ++ "\n") ++
          rest.log := by
  refine ⟨endAlike_between hp hc q hunbound, ?_⟩
  intro m₁ m₂ m₃ outcome₂ outcome₃ h₁ h₂ h₃
  -- one bound under which all three runs are seen to their ends
  obtain ⟨b₁, hb₁⟩ := h₁.eventually
  obtain ⟨b₂, hb₂⟩ := h₂.eventually
  obtain ⟨b₃, hb₃⟩ := h₃.eventually
  have hrun₁ := hb₁ (max b₁ (max b₂ b₃)) (by omega)
  have hrun₂ := hb₂ (max b₁ (max b₂ b₃)) (by omega)
  have hrun₃ := hb₃ (max b₁ (max b₂ b₃)) (by omega)
  rcases evaluate_between hp hc q hunbound (max b₁ (max b₂ b₃)) with
    ⟨interrupt, site, hfirst, -⟩ | ⟨site, first, hgrown, hfirst, hwithout, hwith⟩
  · rw [hrun₁] at hfirst
    cases hfirst
  · rw [hrun₁] at hfirst
    obtain ⟨-, rfl⟩ := Prod.mk.inj hfirst
    rw [hwithout] at hrun₂
    rw [hwith, runOn_remarked hrun₂] at hrun₃
    obtain ⟨-, rfl⟩ := Prod.mk.inj hrun₃
    have hrest := (evaluate_appends _ q).history_eq hrun₂
    rw [hgrown] at hrest
    have hadded₂ : m.added m₂ = first ++ site.added m₂ :=
      Machine.added_eq (by rw [hrest, Array.append_assoc])
    have hadded₃ : m.added (m₂.withHistory
        (site.history ++ remarkEvents site.stack c ++ site.added m₂)) =
        first ++ remarkEvents site.stack c ++ site.added m₂ :=
      Machine.added_eq (by simp [hgrown, Array.append_assoc])
    have hadded₁ : m.added (site.withHistory (site.history.push (.settled site.stack))) =
        first.push (.settled site.stack) := by
      apply Machine.added_eq
      rw [Machine.history_withHistory, hgrown, Array.append_push]
    refine ⟨first, site.added m₂, hadded₁, hadded₂, hadded₃, ?_, ?_⟩
    · rw [hadded₂, History.log_append]
    · rw [hadded₃, History.log_append, History.log_append, hc.log_events]
      rfl

/-- A remark with a bracket in parentheses, after a part that binds another
text between hash marks, in a program that ends with an exit. -/
theorem endAlike_remark_bracket :
    let m : Machine := .bare
    let p := "1 (#0#) var"
    let c := "a ( [ )\tb"
    let q := "#0# exit"
    let run := runOn (evaluate 2 (p ++ " " ++ q)) m
    let remarked := runOn (evaluate 2 (p ++ " #" ++ c ++ "# " ++ q)) m
    Nesting.Closed p.toList ∧ Remark c ∧
      (∀ m₁, Evaluates p m (.ok ()) m₁ → m₁.store.lookup? (remarkToken c) = none) ∧
      EndAlike m (p ++ " #" ++ c ++ "# " ++ q) (p ++ " " ++ q) ∧
      ∃ first rest : History, (m.added run.2).log = first.log ++ rest.log ∧
        (m.added remarked.2).log = first.log ++ ("Stack[  ]" ++ " <- #" ++ "a ( [ ) b" ++ "#\n" ++
          "Comment: " ++ "a ( [ ) b" ++ "\n") ++ rest.log := by
  intro m p c q run remarked
  have hp : Nesting.Closed p.toList := by decide
  have hc : Remark c := ⟨by decide, by decide, by decide⟩
  have hfirst : runOn (evaluate 2 p) m = (.ok (), (runOn (evaluate 2 p) m).2) :=
    runOn_eq_ok (by decide +kernel)
  have hends : Evaluates p m (.ok ()) (runOn (evaluate 2 p) m).2 := ⟨nofun, 2, hfirst⟩
  have hunbound : ∀ m₁, Evaluates p m (.ok ()) m₁ → m₁.store.lookup? (remarkToken c) = none := by
    intro m₁ h₁
    obtain ⟨-, rfl⟩ := hends.unique h₁
    apply Option.isNone_iff_eq_none.mp
    decide +kernel
  have hwithout : Evaluates (p ++ " " ++ q) m run.1 run.2 := evaluates_of_ended (by decide +kernel)
  have hwith : Evaluates (p ++ " #" ++ c ++ "# " ++ q) m remarked.1 remarked.2 :=
    evaluates_of_ended (by decide +kernel)
  obtain ⟨halike, hlogs⟩ := endAlike_remark hp hc q m hunbound
  obtain ⟨first, rest, -, -, -, hlog, hremarked⟩ := hlogs _ _ _ _ _ hends hwithout hwith
  have hstack : (runOn (evaluate 2 p) m).2.stack.display = "Stack[  ]" := by decide +kernel
  have hplain : plain c = "a ( [ ) b" := by decide +kernel
  rw [hstack, hplain] at hremarked
  exact ⟨hp, hc, hunbound, halike, first, rest, hlog, hremarked⟩

end ReversePolish
