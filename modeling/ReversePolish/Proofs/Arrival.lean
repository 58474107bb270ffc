/-
ReversePolish/Proofs/Arrival.lean

Where a run stops.  `Arrives bound source m token site` says that the
evaluation of a source on the machine `m` comes to a token when the machine is
`site`, either among its own tokens or inside code that it evaluates on the
way: the body of a list literal or the code of a control command, to any
depth.

Main observation: an evaluation ends with an exit or a fault exactly if it
arrives at a token that raises it (`evaluate_eq_error`), and then it leaves
the machine that this token has left.  No routine in between catches such an
end, and none does anything more.
-/
import ReversePolish.Proofs.Ending

namespace ReversePolish

open Routine

/-! ### Control -/

namespace Control

variable (evaluate : String → Routine Unit)

/-- A loop on a condition comes to evaluate `code` when the machine is
`start`. -/
inductive LoopCalls (condition body : String) : Nat → Machine → String → Machine → Prop where
  | condition (bound : Nat) (m : Machine) : LoopCalls condition body (bound + 1) m condition m
  | body {bound : Nat} {m m₁ : Machine} :
      runOn (do evaluate condition; popTruth) m = (.ok true, m₁) →
      LoopCalls condition body (bound + 1) m body m₁
  | again {bound : Nat} {m m₁ m₂ start : Machine} {code : String} :
      runOn (do evaluate condition; popTruth) m = (.ok true, m₁) →
      runOn (evaluate body) m₁ = (.ok (), m₂) →
      LoopCalls condition body bound m₂ code start →
      LoopCalls condition body (bound + 1) m code start

/-- A loop over a list comes to evaluate its code for some element, with the
name bound to it. -/
def Binding.Visits {α : Type} (b : Binding) (turn : Value → Routine α) (m : Machine)
    (code : String) (start : Machine) : Prop :=
  ∃ item m₁, Reaches turn b.items m item m₁ ∧ code = b.code ∧
    start = { m₁ with store := m₁.store.define b.name item }

/-- The code that a choice evaluates. -/
def popChoice : Routine String := do
  let condition ← popTruth
  let otherwise ← popText
  let code ← popText
  return if condition then code else otherwise

/-- The condition and the body of a loop. -/
def popLoop : Routine (String × String) := do
  let body ← popText
  let condition ← popText
  return (condition, body)

/-- A command takes its operands and then comes to evaluate `code`. -/
def CallsAfter {α : Type} (operands : Routine α) (calls : α → Machine → String → Machine → Prop)
    (m : Machine) (code : String) (start : Machine) : Prop :=
  ∃ a m₁, runOn operands m = (.ok a, m₁) ∧ calls a m₁ code start

/-- A control command comes to evaluate `code` when the machine is `start`. -/
def Calls (bound : Nat) : Control → Machine → String → Machine → Prop
  | .evaluate => CallsAfter popText fun operand m₁ code start => code = operand ∧ start = m₁
  | .choose => CallsAfter popChoice fun operand m₁ code start => code = operand ∧ start = m₁
  | .loop => CallsAfter popLoop fun operands => LoopCalls evaluate operands.1 operands.2 bound
  | .forEach => CallsAfter popBinding fun b => b.Visits (b.visit evaluate)
  | .mapEach => CallsAfter popBinding fun b => b.Visits fun item => do
      b.visit evaluate item
      pop
  | .filterEach => CallsAfter popBinding fun b => b.Visits fun item => do
      b.visit evaluate item
      return (item, ← popTruth)

variable {evaluate : String → Routine Unit} {interrupt : Interrupt} {m m' : Machine}

/-- A choice takes its operands first. -/
theorem run_choose (bound : Nat) : Control.choose.run evaluate bound = popChoice >>= evaluate := by
  simp only [run, runChoose, popChoice, bind_assoc, pure_bind]

theorem run_loop (bound : Nat) :
    Control.loop.run evaluate bound = popLoop >>= fun operands =>
      whileTrue evaluate operands.1 operands.2 bound := by
  simp only [run, runLoop, popLoop, bind_assoc, pure_bind]

/-- A loop on a condition tests it and then goes round or not. -/
theorem whileTrue_succ (condition body : String) (bound : Nat) :
    whileTrue evaluate condition body (bound + 1) =
      (do evaluate condition; popTruth) >>= fun holds =>
        if holds then do evaluate body; whileTrue evaluate condition body bound
        else pure () := by
  simp only [whileTrue, bind_assoc]

theorem endsOnly_popChoice {allowed : Interrupt → Prop} : EndsOnly allowed popChoice := by
  refine endsOnly_popTruth.bind fun _ => endsOnly_popText.bind fun _ => ?_
  exact endsOnly_popText.bind fun _ => endsOnly_pure _

theorem endsOnly_popLoop {allowed : Interrupt → Prop} : EndsOnly allowed popLoop :=
  endsOnly_popText.bind fun _ => endsOnly_popText.bind fun _ => endsOnly_pure _

theorem endsOnly_popBinding {allowed : Interrupt → Prop} : EndsOnly allowed popBinding := by
  refine endsOnly_popText.bind fun _ => endsOnly_popText.bind fun _ => ?_
  exact endsOnly_popList.bind fun _ => endsOnly_pure _

theorem exists_loopCalls_succ {property : String → Machine → Prop} {condition body : String}
    {bound : Nat} :
    (∃ code start, LoopCalls evaluate condition body (bound + 1) m code start ∧
      property code start) ↔
      property condition m ∨
        ∃ m₁, runOn (do evaluate condition; popTruth) m = (.ok true, m₁) ∧
          (property body m₁ ∨ ∃ m₂, runOn (evaluate body) m₁ = (.ok (), m₂) ∧
            ∃ code start, LoopCalls evaluate condition body bound m₂ code start ∧
              property code start) := by
  constructor
  · rintro ⟨code, start, hcalls, hproperty⟩
    cases hcalls with
    | condition => exact Or.inl hproperty
    | body hcondition => exact Or.inr ⟨_, hcondition, Or.inl hproperty⟩
    | again hcondition hbody hcalls =>
      exact Or.inr ⟨_, hcondition, Or.inr ⟨_, hbody, code, start, hcalls, hproperty⟩⟩
  · rintro (hproperty | ⟨m₁, hcondition, hproperty | ⟨m₂, hbody, code, start, hcalls, hproperty⟩⟩)
    · exact ⟨condition, m, .condition bound m, hproperty⟩
    · exact ⟨body, m₁, .body hcondition, hproperty⟩
    · exact ⟨code, start, .again hcondition hbody hcalls, hproperty⟩

/-- A loop on a condition ends early in its condition or in its body. -/
theorem whileTrue_eq_error (hfinal : interrupt.Final) {condition body : String} {bound : Nat} :
    runOn (whileTrue evaluate condition body bound) m = (.error interrupt, m') ↔
      ∃ code start, LoopCalls evaluate condition body bound m code start ∧
        runOn (evaluate code) start = (.error interrupt, m') := by
  induction bound generalizing m with
  | zero =>
    constructor
    · intro h
      obtain rfl := Except.error.inj (Prod.mk.inj h).1
      exact hfinal.elim
    · rintro ⟨code, start, hcalls, -⟩
      cases hcalls
  | succ bound ih =>
    have hcondition : runOn (do evaluate condition; popTruth) m = (.error interrupt, m') ↔
        runOn (evaluate condition) m = (.error interrupt, m') :=
      EndsOnly.eq_error_of_bind fun _ => endsOnly_popTruth
    rw [whileTrue_succ, runOn_bind_eq_error, hcondition, exists_loopCalls_succ]
    -- past the condition both sides go on only if it holds
    refine or_congr_right ⟨?_, ?_⟩
    · rintro ⟨holds, m₁, htested, hrest⟩
      cases holds with
      | false => cases hrest
      | true =>
        refine ⟨m₁, htested, ?_⟩
        rcases runOn_bind_eq_error.mp hrest with hbody | ⟨_, m₂, hbody, hagain⟩
        · exact Or.inl hbody
        · exact Or.inr ⟨m₂, hbody, ih.mp hagain⟩
    · rintro ⟨m₁, htested, hrest⟩
      refine ⟨true, m₁, htested, runOn_bind_eq_error.mpr ?_⟩
      rcases hrest with hbody | ⟨m₂, hbody, hagain⟩
      · exact Or.inl hbody
      · exact Or.inr ⟨(), m₂, hbody, ih.mpr hagain⟩

section Visits

variable {α : Type} {b : Binding}

theorem Binding.exists_visits {turn : Value → Routine α} {property : String → Machine → Prop} :
    (∃ code start, b.Visits turn m code start ∧ property code start) ↔
      ∃ item m₁, Reaches turn b.items m item m₁ ∧
        property b.code { m₁ with store := m₁.store.define b.name item } := by
  constructor
  · rintro ⟨_, _, ⟨item, m₁, hreaches, rfl, rfl⟩, hproperty⟩
    exact ⟨item, m₁, hreaches, hproperty⟩
  · rintro ⟨item, m₁, hreaches, hproperty⟩
    exact ⟨_, _, ⟨item, m₁, hreaches, rfl, rfl⟩, hproperty⟩

theorem Binding.forM_eq_error :
    runOn (b.items.forM (b.visit evaluate)) m = (.error interrupt, m') ↔
      ∃ code start, b.Visits (b.visit evaluate) m code start ∧
        runOn (evaluate code) start = (.error interrupt, m') := by
  rw [exists_visits]
  exact runOn_forM_eq_error

/-- A loop over a list ends early in its code, and not in what is done with
the result of it. -/
theorem Binding.mapM_eq_error {next : Value → Unit → Routine α}
    (hnext : ∀ item u, EndsOnly (fun _ => False) (next item u)) :
    runOn (b.items.mapM fun item => b.visit evaluate item >>= next item) m =
        (.error interrupt, m') ↔
      ∃ code start, b.Visits (fun item => b.visit evaluate item >>= next item) m code start ∧
        runOn (evaluate code) start = (.error interrupt, m') := by
  rw [exists_visits, runOn_mapM_eq_error]
  simp only [EndsOnly.eq_error_of_bind (hnext _)]
  rfl

end Visits

/-- The operands are there before anything is called, and do not fail. -/
theorem callsAfter_eq_error {α : Type} {operands : Routine α} {next : α → Routine Unit}
    {calls : α → Machine → String → Machine → Prop}
    (hoperands : EndsOnly (fun _ => False) operands)
    (hnext : ∀ a m₁, runOn (next a) m₁ = (.error interrupt, m') ↔
      ∃ code start, calls a m₁ code start ∧ runOn (evaluate code) start = (.error interrupt, m')) :
    runOn (operands >>= next) m = (.error interrupt, m') ↔
      ∃ code start, CallsAfter operands calls m code start ∧
        runOn (evaluate code) start = (.error interrupt, m') := by
  rw [hoperands.bind_eq_error]
  constructor
  · rintro ⟨a, m₁, htaken, hrun⟩
    obtain ⟨code, start, hcalls, hcode⟩ := (hnext a m₁).mp hrun
    exact ⟨code, start, ⟨a, m₁, htaken, hcalls⟩, hcode⟩
  · rintro ⟨code, start, ⟨a, m₁, htaken, hcalls⟩, hcode⟩
    exact ⟨a, m₁, htaken, (hnext a m₁).mpr ⟨code, start, hcalls, hcode⟩⟩

/-- A control command ends early in the code that it evaluates. -/
theorem run_eq_error (hfinal : interrupt.Final) {ctl : Control} {bound : Nat} :
    runOn (ctl.run evaluate bound) m = (.error interrupt, m') ↔
      ∃ code start, ctl.Calls evaluate bound m code start ∧
        runOn (evaluate code) start = (.error interrupt, m') := by
  have honce : ∀ operand m₁, runOn (evaluate operand) m₁ = (.error interrupt, m') ↔
      ∃ code start, (code = operand ∧ start = m₁) ∧
        runOn (evaluate code) start = (.error interrupt, m') := by
    intro operand m₁
    refine ⟨fun h => ⟨operand, m₁, ⟨rfl, rfl⟩, h⟩, ?_⟩
    rintro ⟨_, _, ⟨rfl, rfl⟩, h⟩
    exact h
  cases ctl with
  | evaluate => exact callsAfter_eq_error endsOnly_popText honce
  | choose =>
    rw [run_choose]
    exact callsAfter_eq_error endsOnly_popChoice honce
  | loop =>
    rw [run_loop]
    exact callsAfter_eq_error endsOnly_popLoop fun _ _ => whileTrue_eq_error hfinal
  | forEach => exact callsAfter_eq_error endsOnly_popBinding fun _ _ => Binding.forM_eq_error
  | mapEach =>
    refine callsAfter_eq_error endsOnly_popBinding fun b m₁ => ?_
    refine (EndsOnly.eq_error_of_bind fun _ => endsOnly_push _).trans ?_
    exact Binding.mapM_eq_error fun _ _ => endsOnly_pop
  | filterEach =>
    refine callsAfter_eq_error endsOnly_popBinding fun b m₁ => ?_
    refine (EndsOnly.eq_error_of_bind fun _ => endsOnly_push _).trans ?_
    exact Binding.mapM_eq_error fun _ _ => endsOnly_popTruth.bind fun _ => endsOnly_pure _

end Control

/-! ### Tokens -/

/-- The name of a command is a word and no comment. -/
theorem Command.ofText_name (c : Command) : Token.ofText c.name = .word c.name := by
  have hall : ∀ c ∈ Command.all, Numeral.read c.name = .other ∧ c.name ≠ "true" ∧
      c.name ≠ "false" ∧ Token.inside? '(' ')' c.name = none ∧
      Token.inside? '[' ']' c.name = none := by decide +kernel
  obtain ⟨hread, htrue, hfalse, htext, hlist⟩ := hall c c.mem_all
  simp only [Token.ofText, hread, htrue, hfalse, htext, hlist, if_false]

theorem Command.hash_not_mem_name (c : Command) : '#' ∉ c.name.toList := by
  have hall : ∀ c ∈ Command.all, '#' ∉ c.name.toList := by decide
  exact hall c c.mem_all

/-- A token ends the run by itself, on a machine that has traced it. -/
inductive Raises : String → Machine → Interrupt → Machine → Prop where
  | misspelled {token spelling : String} (m : Machine) :
      Token.ofText token = .misspelled spelling →
      Raises token m (.fault (.misspelledNumber spelling)) m
  | operator {op : Operator} {m m' : Machine} {interrupt : Interrupt} :
      m.store.lookup? op.name = none →
      runOn op.run (m.noting op.name) = (.error interrupt, m') → Raises op.name m interrupt m'
  | effect {eff : Effect} {m m' : Machine} {interrupt : Interrupt} :
      m.store.lookup? eff.name = none →
      runOn eff.run (m.noting eff.name) = (.error interrupt, m') → Raises eff.name m interrupt m'

/-- A token comes to evaluate `code` when the machine is `start`. -/
inductive Enters (evaluate : String → Routine Unit) (bound : Nat) :
    String → Machine → String → Machine → Prop where
  | list {token body : String} (m : Machine) :
      Token.ofText token = .list body → Enters evaluate bound token m body (m.entering token)
  | control {ctl : Control} {m start : Machine} {code : String} :
      m.store.lookup? ctl.name = none →
      ctl.Calls evaluate bound (m.noting ctl.name) code start →
      Enters evaluate bound ctl.name m code start

section Tokens

variable {evaluate : String → Routine Unit} {bound : Nat} {interrupt : Interrupt} {m m' : Machine}

/-- A name that is not bound to a variable runs its command. -/
theorem runOn_evaluateToken_name {c : Command} (hunbound : m.store.lookup? c.name = none) :
    runOn (evaluateToken evaluate bound c.name) m =
      runOn (recovering (c.run evaluate bound)) (m.noting c.name) := by
  rw [evaluateToken, c.ofText_name, ← runOn_execute_name]
  dsimp only
  rw [evaluateWord, runOn_bind_of_ok (runOn_get m), hunbound]
  dsimp only
  rw [if_neg c.hash_not_mem_name]

theorem runOn_collect_eq_error {token body : String} :
    runOn (collect evaluate token body) m = (.error interrupt, m') ↔
      runOn (evaluate body) (m.entering token) = (.error interrupt, m') := by
  rcases hrun : runOn (evaluate body) (m.entering token) with ⟨raised | ⟨⟩, m₁⟩
  · rw [runOn_collect_of_error hrun]
  · rw [runOn_collect_of_ok hrun]
    exact ⟨nofun, nofun⟩

/-- A word that ends early is the name of a command. -/
theorem exists_command_of_evaluateWord_error {name : String}
    (h : runOn (evaluateWord evaluate bound name) m = (.error interrupt, m')) :
    ∃ c : Command, c.name = name ∧ m.store.lookup? c.name = none := by
  rw [evaluateWord, runOn_bind_of_ok (runOn_get m)] at h
  cases hlookup : m.store.lookup? name with
  | some v =>
    rw [hlookup] at h
    cases h
  | none =>
    rw [hlookup] at h
    dsimp only at h
    split at h
    · cases h
    · cases hname : Command.ofName? name with
      | none =>
        rw [execute, hname] at h
        cases h
      | some c =>
        obtain rfl := Command.name_of_ofName? hname
        exact ⟨c, rfl, hlookup⟩

/-- A token ends early by itself or in the code that it evaluates. -/
theorem evaluateToken_eq_error (hfinal : interrupt.Final) {token : String} :
    runOn (evaluateToken evaluate bound token) m = (.error interrupt, m') ↔
      Raises token m interrupt m' ∨ ∃ code start, Enters evaluate bound token m code start ∧
        runOn (evaluate code) start = (.error interrupt, m') := by
  constructor
  · intro h
    cases htoken : Token.ofText token with
    | number n | truth b | text inside =>
      rw [evaluateToken, htoken] at h
      cases h
    | misspelled spelling =>
      rw [evaluateToken, htoken] at h
      cases h
      exact Or.inl (.misspelled m htoken)
    | list body =>
      rw [evaluateToken, htoken] at h
      exact Or.inr ⟨body, m.entering token, .list m htoken, runOn_collect_eq_error.mp h⟩
    | word name =>
      obtain rfl := Token.ofText_eq_word htoken
      have hword := h
      rw [evaluateToken, htoken] at hword
      obtain ⟨c, rfl, hunbound⟩ := exists_command_of_evaluateWord_error hword
      rw [runOn_evaluateToken_name hunbound, runOn_recovering_eq_error hfinal] at h
      cases c with
      | operator op => exact Or.inl (.operator hunbound h)
      | effect eff => exact Or.inl (.effect hunbound h)
      | control ctl =>
        obtain ⟨code, start, hcalls, hrun⟩ := (Control.run_eq_error hfinal).mp h
        exact Or.inr ⟨code, start, .control hunbound hcalls, hrun⟩
  · have hcommand : ∀ c : Command, m.store.lookup? c.name = none →
        runOn (c.run evaluate bound) (m.noting c.name) = (.error interrupt, m') →
        runOn (evaluateToken evaluate bound c.name) m = (.error interrupt, m') := by
      intro c hunbound hrun
      rw [runOn_evaluateToken_name hunbound]
      exact (runOn_recovering_eq_error hfinal).mpr hrun
    rintro (hraises | ⟨code, start, henters, hrun⟩)
    · cases hraises with
      | misspelled _ htoken =>
        rw [evaluateToken, htoken]
        rfl
      | operator hunbound hrun => exact hcommand (.operator _) hunbound hrun
      | effect hunbound hrun => exact hcommand (.effect _) hunbound hrun
    · cases henters with
      | list _ htoken =>
        rw [evaluateToken, htoken]
        exact runOn_collect_eq_error.mpr hrun
      | control hunbound hcalls =>
        have hcontrol := (Control.run_eq_error hfinal).mpr ⟨_, _, hcalls, hrun⟩
        exact hcommand (.control _) hunbound hcontrol

end Tokens

/-! ### Sources -/

/-- An evaluation comes to a token, maybe in code that it evaluates on the
way, when the machine is `site`. -/
inductive Arrives : Nat → String → Machine → String → Machine → Prop where
  | token {bound : Nat} {source token : String} {m site : Machine} :
      Reaches (visitToken (evaluate bound) bound) (tokenize source) m token site →
      Arrives (bound + 1) source m token site
  | inside {bound : Nat} {source outer code token : String} {m m₁ start site : Machine} :
      Reaches (visitToken (evaluate bound) bound) (tokenize source) m outer m₁ →
      Enters (evaluate bound) bound outer (m₁.tracing outer) code start →
      Arrives bound code start token site → Arrives (bound + 1) source m token site

/-- **An evaluation ends with an exit or a fault exactly where it arrives at a
token that raises it**, and leaves the machine that this token has left. -/
theorem evaluate_eq_error {interrupt : Interrupt} (hfinal : interrupt.Final) {bound : Nat}
    {source : String} {m m' : Machine} :
    runOn (evaluate bound source) m = (.error interrupt, m') ↔
      ∃ token site, Arrives bound source m token site ∧
        Raises token (site.tracing token) interrupt m' := by
  induction bound generalizing source m with
  | zero =>
    constructor
    · intro h
      cases h
      exact hfinal.elim
    · rintro ⟨token, site, harrives, -⟩
      cases harrives
  | succ bound ih =>
    have hsettle : ∀ u : Unit, EndsOnly (fun _ => False) settle := fun _ => .of_ok _ fun _ => rfl
    rw [evaluate, EndsOnly.eq_error_of_bind hsettle, runOn_forM_eq_error]
    -- nested code is evaluated with the bound before, for which this is known
    simp only [runOn_visitToken, evaluateToken_eq_error hfinal, ih]
    constructor
    · rintro ⟨outer, m₁, hreaches, hraises | ⟨code, start, henters, token, site, harrives, hraises⟩⟩
      · exact ⟨outer, m₁, .token hreaches, hraises⟩
      · exact ⟨token, site, .inside hreaches henters harrives, hraises⟩
    · rintro ⟨token, site, harrives, hraises⟩
      cases harrives with
      | token hreaches => exact ⟨token, site, hreaches, Or.inl hraises⟩
      | inside hreaches henters harrives =>
        exact ⟨_, _, hreaches, Or.inr ⟨_, _, henters, token, site, harrives, hraises⟩⟩

end ReversePolish
