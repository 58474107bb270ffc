/-
ReversePolish/Proofs/Quoting.lean

Code in parentheses.  A program may be quoted and handed to `eval`, or to `if`
as one of its two branches, and does then what it does on its own.

* The text is scanned twice, first as a quotation and then as code.  The first
  scan keeps all of it but the white characters, which become plain spaces,
  and the second would have read them as such anyway (`tokenize_plain`).
* The quotation is a single token as long as its parentheses match and its
  hash marks come in pairs (`Balanced`).
* The command evaluates the code on the machine on which the quotation was
  met, but for a few more lines in the log (`evaluate_call`).

So both programs come to the same end, and none is reached by only one of the
two (`endAlike_quoted`).
-/
import ReversePolish.Proofs.Exchange
import ReversePolish.Proofs.Grammar
import ReversePolish.Proofs.Recovery
import ReversePolish.Proofs.RoundTrip

namespace ReversePolish

open Routine

/-! ### Plain spaces -/

/-- A text with a plain space for each white character. -/
def plain (s : String) : String := String.ofList (s.toList.map plainSpace)

theorem toList_plain (s : String) : (plain s).toList = s.toList.map plainSpace :=
  String.toList_ofList

/-- The scan does not tell white characters from plain spaces. -/
theorem tokenize_plain (s : String) : tokenize (plain s) = tokenize s := by
  have hchars : (plain s).toList.map plainSpace = s.toList.map plainSpace := by
    rw [toList_plain, List.map_map]
    exact List.map_congr_left fun c _ => plainSpace_plainSpace c
  rw [tokenize, tokenize, hchars]

theorem evaluate_plain (bound : Nat) (s : String) : evaluate bound (plain s) = evaluate bound s := by
  cases bound with
  | zero => rfl
  | succ bound => rw [evaluate, evaluate, tokenize_plain]

/-! ### Balanced texts -/

/-- A text whose parentheses match and whose hash marks come in pairs. -/
structure Balanced (s : String) : Prop where
  opened : ∀ cs, cs <+: s.toList → cs.count ')' ≤ cs.count '('
  closed : s.toList.count '(' = s.toList.count ')'
  paired : s.toList.count '#' % 2 = 0

theorem balanced_iff {s : String} :
    Balanced s ↔ (∀ cs ∈ s.toList.inits, cs.count ')' ≤ cs.count '(') ∧
      s.toList.count '(' = s.toList.count ')' ∧ s.toList.count '#' % 2 = 0 := by
  simp only [List.mem_inits]
  exact ⟨fun h => ⟨h.opened, h.closed, h.paired⟩, fun ⟨ho, hc, hp⟩ => ⟨ho, hc, hp⟩⟩

instance (s : String) : Decidable (Balanced s) := decidable_of_iff' _ balanced_iff

/-- Marks are not white, and no other character becomes one. -/
theorem count_map_plainSpace {mark : Char} (hmark : mark ∉ whites) (cs : List Char) :
    (cs.map plainSpace).count mark = cs.count mark := by
  have hspace : mark ≠ ' ' := (plainSpace_of_not_mem hmark).2
  rw [List.count_eq_countP, List.count_eq_countP, List.countP_map]
  apply List.countP_congr
  intro c _
  simp only [Function.comp_apply, beq_iff_eq]
  by_cases hc : c ∈ whites
  · rw [plainSpace_of_mem hc]
    constructor
    · exact fun heq => absurd heq.symm hspace
    · rintro rfl
      exact absurd hc hmark
  · rw [(plainSpace_of_not_mem hc).1]

/-- A balanced text can be quoted once its spaces are plain. -/
theorem Balanced.quotable {s : String} (h : Balanced s) : Quotable (plain s) where
  unspaced := by
    rw [toList_plain]
    intro c hc hwhite
    obtain ⟨d, -, rfl⟩ := List.mem_map.mp hc
    have hchanged : ∀ c ∈ ['\t', '\n', '\r', '\u3000'], plainSpace c ≠ c :=
      forall_mem_of_all (by decide)
    exact hchanged _ hwhite (plainSpace_plainSpace d)
  paired := by
    rw [toList_plain, count_map_plainSpace (by decide)]
    exact h.paired
  opened := by
    rw [toList_plain]
    intro cs hcs
    obtain ⟨ds, hds, rfl⟩ := List.prefix_map_iff.mp hcs
    rw [count_map_plainSpace (by decide), count_map_plainSpace (by decide)]
    exact h.opened ds hds
  balanced := by
    rw [toList_plain, count_map_plainSpace (by decide), count_map_plainSpace (by decide)]
    exact h.closed

/-! ### Ends that are alike -/

/-- Two machines that differ in the log alone. -/
structure Machine.Alike (m₁ m₂ : Machine) : Prop where
  stack : m₁.stack = m₂.stack
  store : m₁.store = m₂.store
  host : m₁.host = m₂.host
  output : m₁.history.output = m₂.history.output
  prompts : m₁.history.prompts = m₂.history.prompts
  sleeps : m₁.history.sleeps = m₂.history.sleeps

/-- On the machine `m` one source comes to an end exactly if the other does,
and then the ends are alike. -/
structure EndAlike (m : Machine) (source other : String) : Prop where
  forth : ∀ outcome m₁, Evaluates source m outcome m₁ →
    ∃ m₂, Evaluates other m outcome m₂ ∧ m₁.Alike m₂
  back : ∀ outcome m₂, Evaluates other m outcome m₂ →
    ∃ m₁, Evaluates source m outcome m₁ ∧ m₁.Alike m₂

/-- It is enough that the runs are alike with some more nested evaluations for
the first source. -/
theorem EndAlike.of_runs {m : Machine} {source other : String} (extra : Nat)
    (h : ∀ bound outcome m₂, runOn (evaluate bound other) m = (outcome, m₂) →
      ∃ m₁, runOn (evaluate (bound + extra) source) m = (outcome, m₁) ∧ m₁.Alike m₂) :
    EndAlike m source other where
  forth := by
    rintro outcome m₁ ⟨hended, bound, hrun⟩
    rcases hother : runOn (evaluate bound other) m with ⟨outcome', m₂⟩
    obtain ⟨m₁', hrun', halike⟩ := h bound outcome' m₂ hother
    have hlarger : runOn (evaluate (bound + extra) source) m = (outcome, m₁) := by
      rw [evaluate_refines (Nat.le_add_right bound extra) source m (by rw [hrun]; exact hended),
        hrun]
    obtain ⟨rfl, rfl⟩ := Prod.mk.inj (hlarger.symm.trans hrun')
    exact ⟨m₂, ⟨hended, bound, hother⟩, halike⟩
  back := by
    rintro outcome m₂ ⟨hended, bound, hrun⟩
    obtain ⟨m₁, hrun', halike⟩ := h bound outcome m₂ hrun
    exact ⟨m₁, ⟨hended, bound + extra, hrun'⟩, halike⟩

/-! ### Events for the log -/

theorem Event.IsTrace.quiet {e : Event} (h : e.IsTrace) : e.Quiet := by
  refine ⟨h.output_eq, ?_, ?_⟩
  · cases e with
    | prompted => exact absurd h id
    | _ => rfl
  · cases e with
    | slept => exact absurd h id
    | _ => rfl

/-- Quiet events before and after what a run has added. -/
theorem Machine.alike_withHistory {m' : Machine} {h before added after : History}
    (hgrown : m'.history = h ++ added) (hbefore : ∀ e ∈ before, e.Quiet)
    (hafter : ∀ e ∈ after, e.Quiet) :
    (m'.withHistory (h ++ before ++ added ++ after)).Alike m' where
  stack := rfl
  store := rfl
  host := rfl
  output := by simp [hgrown, History.output_of_quiet hbefore, History.output_of_quiet hafter]
  prompts := by simp [hgrown, History.prompts_of_quiet hbefore, History.prompts_of_quiet hafter]
  sleeps := by simp [hgrown, History.sleeps_of_quiet hbefore, History.sleeps_of_quiet hafter]

/-! ### Calls -/

/-- The name of a command is a token of its own. -/
theorem Command.name_lone (c : Command) : Lone c.name := by
  have hall : ∀ c ∈ Command.all, c.name.toList ≠ [] ∧ c.name.toList.all (fun d =>
      decide (plainSpace d = d ∧ d ∉ [' ', '(', ')', '#', '[', ']'])) = true := by
    decide +kernel
  obtain ⟨hne, hcheck⟩ := hall c c.mem_all
  have hchars := forall_mem_of_all hcheck
  obtain ⟨hclosed, hunbroken⟩ :=
    Nesting.steady_of_plain (fun d hd => (hchars d hd).2) .outermost Nesting.open_outermost
  exact ⟨fun d hd => (hchars d hd).1, ⟨hne, hunbroken⟩, hclosed⟩

/-- The operands of `eval` and `if` as they are written: quoted code, and a
truth value. -/
inductive Quoted : Value → Prop
  | code {p : String} : Balanced p → Quoted (.text (plain p))
  | truth (b : Bool) : Quoted (.truth b)

theorem Quoted.quotable {v : Value} (h : Quoted v) : ∀ s ∈ v.texts, Quotable s := by
  cases h with
  | code hp => simpa using hp.quotable
  | truth b => simp

theorem Quoted.pushes {v : Value} (h : Quoted v) (bound : Nat) :
    Pushes (visitToken (evaluate bound) bound v.display) [v] := by
  apply Pushes.visitToken
  cases h with
  | code hp =>
    rw [evaluateToken, Token.ofText_quoted]
    exact pushes_push _
  | truth b =>
    rw [evaluateToken, Token.ofText_truth]
    exact pushes_push _

section Call

variable {source code : String} {bound : Nat} {m site m₁ m₂ : Machine}
  {outcome : Except Interrupt Unit}

/-- After its last token a source has only the stack to show. -/
theorem evaluate_last {front : List String} {token : String}
    (htokens : tokenize source = front ++ [token])
    (hfront : runOn (front.forM (visitToken (evaluate bound) bound)) m = (.ok (), site))
    (hlast : runOn (visitToken (evaluate bound) bound token) site = (outcome, m₁)) :
    ∃ after : History, (∀ e ∈ after, e.Quiet) ∧
      runOn (evaluate (bound + 1) source) m =
        (outcome, m₁.withHistory (m₁.history ++ after)) := by
  rw [evaluate_split htokens, runOn_bind_of_ok hfront]
  cases outcome with
  | error interrupt =>
    refine ⟨#[], by simp, ?_⟩
    rw [runOn_bind_of_error hlast, Array.append_empty, Machine.withHistory_self]
  | ok =>
    refine ⟨#[.settled m₁.stack], fun e he => ?_, ?_⟩
    · obtain rfl := Array.mem_singleton.mp he
      exact ⟨rfl, rfl, rfl⟩
    · rw [runOn_bind_of_ok hlast, Array.append_singleton]
      rfl

/-- A control command as a token, if no variable has its name. -/
theorem runOn_visit_control {ctl : Control} (hunbound : site.store.lookup? ctl.name = none)
    (hrun : runOn (ctl.run (evaluate bound) bound) ((site.tracing ctl.name).noting ctl.name) =
      (outcome, m₁)) :
    runOn (visitToken (evaluate bound) bound ctl.name) site = (outcome, m₁) := by
  have hname : runOn (evaluateToken (evaluate bound) bound ctl.name) (site.tracing ctl.name) =
      runOn (recovering (ctl.run (evaluate bound) bound))
        ((site.tracing ctl.name).noting ctl.name) :=
    runOn_evaluateToken_name (c := .control ctl) hunbound
  rw [runOn_visitToken, hname]
  refine runOn_recovering_of_ne hrun ?_
  rintro ⟨cause, rfl⟩
  exact Control.run_endsOnly (fun _ => nofun) (evaluate_unrefused bound) ctl bound hrun cause rfl

/-- The literals of some operands, and then a control command that takes them
and evaluates code: the run is that of the code, over a longer history. -/
theorem evaluate_call {operands : List Value} {ctl : Control}
    (htokens : tokenize source = operands.map Value.display ++ [ctl.name])
    (hoperands : ∀ v ∈ operands, Quoted v)
    (hcalls : ∀ m, runOn (ctl.run (evaluate bound) bound) (m.holding operands) =
      runOn (evaluate bound code) m)
    (hunbound : m.store.lookup? ctl.name = none)
    (hcode : runOn (evaluate bound code) m = (outcome, m₂)) :
    ∃ m₁, runOn (evaluate (bound + 1) source) m = (outcome, m₁) ∧ m₁.Alike m₂ := by
  have happends := evaluate_appends bound code
  have hliterals : Pushes ((operands.map Value.display).forM (visitToken (evaluate bound) bound))
      (operands.map id) := Pushes.forM fun v hv => (hoperands v hv).pushes bound
  rw [List.map_id] at hliterals
  obtain ⟨traces, htraces, hpushed⟩ := hliterals m
  let site : Machine := (m.withHistory (m.history ++ traces)).holding operands
  -- what the history has got before the code begins
  let before : History := traces ++ #[.traced site.stack ctl.name, .commandEntered ctl.name]
  have hstart : (site.tracing ctl.name).noting ctl.name =
      (m.withHistory (m.history ++ before)).holding operands := by
    refine congrArg site.withHistory ?_
    show ((m.history ++ traces).push _).push _ = _
    apply Array.toList_inj.mp
    simp [before]
  have hquiet : ∀ e ∈ before, e.Quiet := by
    intro e he
    simp only [before, Array.mem_append, List.mem_toArray, List.mem_cons, List.not_mem_nil,
      or_false] at he
    rcases he with he | rfl | rfl
    · exact (htraces e he).quiet
    · exact ⟨rfl, rfl, rfl⟩
    · exact ⟨rfl, rfl, rfl⟩
  have hcommand : runOn (visitToken (evaluate bound) bound ctl.name) site =
      (outcome, m₂.withHistory (m.history ++ before ++ m.added m₂)) := by
    have hsite : site.store.lookup? ctl.name = none := hunbound
    apply runOn_visit_control hsite
    rw [hstart, hcalls]
    exact happends.run_over hcode _
  obtain ⟨after, hafter, hrun⟩ := evaluate_last htokens hpushed hcommand
  exact ⟨_, hrun, Machine.alike_withHistory (happends.history_eq hcode) hquiet hafter⟩

end Call

/-! ### Quoted code -/

/-- Quotations and the name of a command, with single spaces between them. -/
theorem tokenize_call {source : String} {operands : List Value} (c : Command)
    (hoperands : ∀ v ∈ operands, Quoted v)
    (hsource : plain source = String.intercalate " " (operands.map Value.display ++ [c.name])) :
    tokenize source = operands.map Value.display ++ [c.name] := by
  rw [← tokenize_plain, hsource]
  apply tokenize_join
  intro token htoken
  rcases List.mem_append.mp htoken with hliteral | hname
  · obtain ⟨v, hv, rfl⟩ := List.mem_map.mp hliteral
    exact Value.display_lone (hoperands v hv).quotable
  · obtain rfl := List.mem_singleton.mp hname
    exact c.name_lone

/-- A call ends as the code does that it evaluates. -/
theorem endAlike_call {source code : String} {operands : List Value} {m : Machine} (ctl : Control)
    (hoperands : ∀ v ∈ operands, Quoted v)
    (hsource : plain source = String.intercalate " " (operands.map Value.display ++ [ctl.name]))
    (hcalls : ∀ bound m, runOn (ctl.run (evaluate bound) bound) (m.holding operands) =
      runOn (evaluate bound code) m)
    (hunbound : m.store.lookup? ctl.name = none) : EndAlike m source code := by
  have htokens := tokenize_call (.control ctl) hoperands hsource
  exact .of_runs 1 fun bound _ _ hcode =>
    evaluate_call htokens hoperands (hcalls bound) hunbound hcode

theorem endAlike_eval {m : Machine} {p : String} (hunbound : m.store.lookup? "eval" = none)
    (hp : Balanced p) : EndAlike m ("(" ++ p ++ ") eval") p := by
  have hoperands : ∀ v ∈ [Value.text (plain p)], Quoted v := by
    simpa using .code hp
  refine endAlike_call .evaluate hoperands ?_ (fun bound m => ?_) hunbound
  · apply String.toList_injective
    simp [toList_plain, plainSpace, Value.display, Control.name]
  · rw [← evaluate_plain bound p]
    rfl

theorem endAlike_if {m : Machine} {p q : String} (hunbound : m.store.lookup? "if" = none)
    (hp : Balanced p) (hq : Balanced q) (b : Bool) :
    EndAlike m ("(" ++ p ++ ") (" ++ q ++ (") " ++ (Value.truth b).display ++ " if"))
      (if b then p else q) := by
  have hoperands : ∀ v ∈ [Value.text (plain p), .text (plain q), .truth b], Quoted v := by
    simpa using ⟨.code hp, .code hq, .truth b⟩
  refine endAlike_call .choose hoperands ?_ (fun bound m => ?_) hunbound
  · apply String.toList_injective
    cases b <;> simp [toList_plain, plainSpace, Value.display, Control.name]
  · rw [← evaluate_plain bound]
    cases b <;> rfl

/-- **Quoted code does what the code does.**  A balanced text in parentheses,
handed to `eval` or chosen by `if`, comes to an end exactly if it does so as a
program of its own.  Then it ends in the same way and leaves the same stack,
variables and host, and the two have printed, asked and slept alike. -/
theorem endAlike_quoted (m : Machine) :
    (m.store.lookup? "eval" = none → ∀ p, Balanced p → EndAlike m ("(" ++ p ++ ") eval") p) ∧
    (m.store.lookup? "if" = none → ∀ p q, Balanced p → Balanced q →
      EndAlike m ("(" ++ p ++ ") (" ++ q ++ ") true if") p ∧
      EndAlike m ("(" ++ p ++ ") (" ++ q ++ ") false if") q) := by
  refine ⟨fun hunbound p hp => endAlike_eval hunbound hp, fun hunbound p q hp hq => ⟨?_, ?_⟩⟩
  · exact endAlike_if hunbound hp hq true
  · exact endAlike_if hunbound hp hq false

/-- Code over two lines with brackets that do not match and with a comment, on
a machine that binds a name spelled like a literal. -/
theorem endAlike_quoted_print :
    let m : Machine := { Machine.bare with
      stack := .ofList [.truth false], store := .ofList [("true", .number .nan)] }
    let p := "([ a)\n(b ]) print # ( ) #"
    let q := "1 exit"
    Balanced p ∧ Balanced q ∧ EndAlike m ("(" ++ p ++ ") eval") p ∧
      EndAlike m ("(" ++ p ++ ") (" ++ q ++ ") true if") p ∧
      EndAlike m ("(" ++ p ++ ") (" ++ q ++ ") false if") q := by
  intro m p q
  have hunbound : ∀ name ∈ ["eval", "if"], (m.store.lookup? name).isNone = true := by decide +kernel
  have hp : Balanced p := by decide
  have hq : Balanced q := by decide
  obtain ⟨heval, hif⟩ := endAlike_quoted m
  have heval' := heval (Option.isNone_iff_eq_none.mp (hunbound "eval" (by decide))) p hp
  have hif' := hif (Option.isNone_iff_eq_none.mp (hunbound "if" (by decide))) p q hp hq
  exact ⟨hp, hq, heval', hif'⟩

end ReversePolish
