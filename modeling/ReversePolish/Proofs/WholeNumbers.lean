/-
ReversePolish/Proofs/WholeNumbers.lean

The whole numbers that commands use.  Commands that need an index, a count, a
character code or a status make it from a number on the stack, by one of the
conversions that saturate, and use the number in no other way (`TakenWhole`).

So a whole number in a refusal or in an exit is in the range of its conversion.
This is shown of a routine by the ways in which it can end
(`Interrupt.InRange`), for every command and on every machine.  What evaluates code
ends only as that code does, and so it holds at any depth (`Command.inRange_run`).
-/
import ReversePolish.Proofs.Repetition
import ReversePolish.Proofs.Saturation
import ReversePolish.Proofs.Scalars

namespace ReversePolish

open Routine

/-! ### Whole numbers in reports -/

/-- The whole numbers that a refusal names are in their ranges. -/
def Refusal.InRange : Refusal → Prop
  | indexOutOfRange index _ => index ≤ Number.maxIndex
  | undecodable _ point => point ≤ 0xffffffff
  | rangeTooLong length => length ≤ Number.maxIndex
  | repeatTooLong _ count _ _ => count ≤ Number.maxIndex
  | emptyText | zeroStep | unsleepable _ => True

/-- The whole numbers with which a routine ends are in their ranges. -/
def Interrupt.InRange : Interrupt → Prop
  | exit status => -0x80000000 ≤ status ∧ status ≤ 0x7fffffff
  | refusal cause => cause.InRange
  | fault _ | exhausted => True

namespace Routine

theorem inRange_ofExcept {α : Type} (result : Except Fault α) :
    EndsOnly Interrupt.InRange (ofExcept result) := by
  cases result with
  | ok a => exact endsOnly_pure a
  | error cause => exact endsOnly_throw trivial

theorem inRange_popNumber : EndsOnly Interrupt.InRange popNumber :=
  endsOnly_pop.bind fun _ => inRange_ofExcept _

theorem inRange_refuse {cause : Refusal} (h : cause.InRange) :
    EndsOnly Interrupt.InRange (refuse cause : Routine Unit) := endsOnly_throw h

/-- Nothing comes after a refusal. -/
theorem inRange_refuse_bind {cause : Refusal} (h : cause.InRange) (next : Unit → Routine Unit) :
    EndsOnly Interrupt.InRange (refuse cause >>= next) := by
  have hrefuse : refuse cause >>= next = refuse cause := rfl
  rw [hrefuse]
  exact inRange_refuse h

/-- What is taken for an index is in the range of indexes. -/
theorem inRange_popIndex {next : ℕ → Routine Unit}
    (h : ∀ i ≤ Number.maxIndex, EndsOnly Interrupt.InRange (next i)) :
    EndsOnly Interrupt.InRange (popIndex >>= next) := by
  have hnext : popIndex >>= next = popNumber >>= fun n => next n.toIndex := by
    simp only [popIndex, bind_assoc, pure_bind]
  rw [hnext]
  exact inRange_popNumber.bind fun n => h _ n.toIndex_le

end Routine

namespace Operator

theorem rangeLength_le {start stop step : ℕ} (hstep : 0 < step) :
    rangeLength start stop step ≤ stop := by
  by_contra hlong
  rw [not_le, lt_rangeLength_iff hstep] at hlong
  have hle : stop ≤ stop * step := Nat.le_mul_of_pos_right _ hstep
  omega

theorem inRange_edit {index : ℕ} (h : index ≤ Number.maxIndex) (fits : Prop) [Decidable fits]
    (v : Value) (items : List Value) :
    EndsOnly Interrupt.InRange
      (if fits then push v else refuse (.indexOutOfRange index items)) := by
  split
  · exact endsOnly_push v
  · exact inRange_refuse h

theorem inRange_runRepeat : EndsOnly Interrupt.InRange runRepeat := by
  refine endsOnly_pop.bind fun times => endsOnly_pop.bind fun subject => ?_
  refine (inRange_ofExcept times.toNumber).bind fun n => ?_
  dsimp only
  split
  · apply inRange_refuse_bind
    exact n.toIndex_le
  · exact endsOnly_push _

theorem inRange_runDecode : EndsOnly Interrupt.InRange runDecode := by
  refine inRange_popNumber.bind fun code => ?_
  cases charOfCode? code.toCodePoint with
  | some c => exact endsOnly_push _
  | none => exact inRange_refuse code.toCodePoint_le

theorem inRange_runEncode : EndsOnly Interrupt.InRange runEncode := by
  refine endsOnly_popText.bind fun text => ?_
  cases text.toList with
  | nil => exact inRange_refuse trivial
  | cons c rest => exact endsOnly_push _

theorem inRange_runGet : EndsOnly Interrupt.InRange runGet := by
  refine inRange_popIndex fun index hindex => endsOnly_popList.bind fun items => ?_
  cases items[index]? with
  | some v => exact endsOnly_push v
  | none => exact inRange_refuse hindex

theorem inRange_runRange : EndsOnly Interrupt.InRange runRange := by
  refine inRange_popIndex fun step _ => inRange_popIndex fun stop hstop => ?_
  refine inRange_popIndex fun start _ => ?_
  dsimp only
  split
  · apply inRange_refuse_bind
    trivial
  · rename_i hstep
    have hlength : rangeLength start stop step ≤ Number.maxIndex :=
      (rangeLength_le (Nat.pos_of_ne_zero hstep)).trans hstop
    split
    · apply inRange_refuse_bind
      exact hlength
    · exact endsOnly_push _

theorem inRange_run (op : Operator) : EndsOnly Interrupt.InRange op.run := by
  cases op with
  | add | subtract | multiply | divide | remainder | power | less =>
    exact inRange_popNumber.bind fun _ => inRange_popNumber.bind fun _ => endsOnly_push _
  | conjoin | disjoin =>
    exact endsOnly_popTruth.bind fun _ => endsOnly_popTruth.bind fun _ => endsOnly_push _
  | equal | concat | split | find =>
    exact endsOnly_popText.bind fun _ => endsOnly_popText.bind fun _ => endsOnly_push _
  | round => exact inRange_popNumber.bind fun _ => endsOnly_push _
  | negate => exact endsOnly_popTruth.bind fun _ => endsOnly_push _
  | repeatText => exact inRange_runRepeat
  | decode => exact inRange_runDecode
  | encode => exact inRange_runEncode
  | replace =>
    exact endsOnly_popText.bind fun _ => endsOnly_popText.bind fun _ =>
      endsOnly_popText.bind fun _ => endsOnly_push _
  | join => exact endsOnly_popText.bind fun _ => endsOnly_popList.bind fun _ => endsOnly_push _
  | get => exact inRange_runGet
  | set | insert =>
    exact endsOnly_pop.bind fun _ => inRange_popIndex fun _ hindex =>
      endsOnly_popList.bind fun _ => inRange_edit hindex ..
  | delete =>
    exact inRange_popIndex fun _ hindex => endsOnly_popList.bind fun _ => inRange_edit hindex ..
  | append => exact endsOnly_pop.bind fun _ => endsOnly_popList.bind fun _ => endsOnly_push _
  | sort | reverse => exact endsOnly_popList.bind fun _ => endsOnly_push _
  | range => exact inRange_runRange
  | length | kind => exact endsOnly_pop.bind fun _ => endsOnly_push _
  | drop => exact endsOnly_pop.bind fun _ => endsOnly_pure _
  | cast =>
    exact endsOnly_popText.bind fun _ => endsOnly_pop.bind fun _ =>
      (inRange_ofExcept _).bind fun _ => endsOnly_push _
  | duplicate => exact endsOnly_pop.bind fun _ => (endsOnly_push _).bind fun _ => endsOnly_push _
  | swap =>
    exact endsOnly_pop.bind fun _ => endsOnly_pop.bind fun _ =>
      (endsOnly_push _).bind fun _ => endsOnly_push _

end Operator

theorem Effect.inRange_run (eff : Effect) : EndsOnly Interrupt.InRange eff.run := by
  have hfault : ∀ cause, Interrupt.InRange (.fault cause) := fun _ => trivial
  cases eff with
  | print => exact endsOnly_popText.bind fun _ => endsOnly_record _
  | input =>
    exact endsOnly_popText.bind fun message =>
      (endsOnly_ask hfault message).bind fun _ => endsOnly_push _
  | exit =>
    refine inRange_popNumber.bind fun n => (endsOnly_record _).bind fun _ => ?_
    exact endsOnly_throw n.toStatus_range
  | depth | names => exact .of_ok _ fun _ => rfl
  | define =>
    refine endsOnly_popText.bind fun _ => endsOnly_pop.bind fun _ => ?_
    exact .bind (.of_ok _ fun _ => rfl) fun _ => .of_ok _ fun _ => rfl
  | free =>
    refine endsOnly_popText.bind fun _ => ?_
    exact .bind (.of_ok _ fun _ => rfl) fun _ => .of_ok _ fun _ => rfl
  | now => exact (endsOnly_readClock hfault).bind fun _ => endsOnly_push _
  | sleep =>
    refine inRange_popNumber.bind fun seconds => ?_
    dsimp only
    split
    · apply inRange_refuse_bind
      trivial
    · exact endsOnly_record _

/-- An evaluation ends with no refusal, and with a status of 32 bits if it exits. -/
theorem inRange_evaluate (bound : Nat) (source : String) :
    EndsOnly Interrupt.InRange (evaluate bound source) := by
  intro m m' interrupt hrun
  cases interrupt with
  | exit status => exact evaluate_exit_range hrun
  | refusal cause => exact absurd rfl (evaluate_unrefused bound source hrun cause)
  | fault cause => trivial
  | exhausted => trivial

/-- Whatever a command names when it ends early is in its range. -/
theorem Command.inRange_run (bound : Nat) (c : Command) :
    EndsOnly Interrupt.InRange (c.run (evaluate bound) bound) := by
  cases c with
  | operator op => exact op.inRange_run
  | effect eff => exact eff.inRange_run
  | control ctl => exact ctl.run_endsOnly trivial (inRange_evaluate bound) bound

/-! ### Whole numbers in use -/

/-- How the commands use an operand `k` that stands for the number `n`, where they
need a whole number.  Apart from `n` or `k` itself, which a refusal may give back,
they depend on what `n` is converted to. -/
structure TakenWhole (k : Value) (n : Number) : Prop where
  get : ∀ v : Value, Operator.get.Edit [v, k] n.toIndex v.toList (n.toIndex < v.toList.length)
    (v.toList.getD n.toIndex .blank)
  set : ∀ v w : Value, Operator.set.Edit [v, k, w] n.toIndex v.toList
    (n.toIndex < v.toList.length) (.list (v.toList.set n.toIndex w))
  delete : ∀ v : Value, Operator.delete.Edit [v, k] n.toIndex v.toList
    (n.toIndex < v.toList.length) (.list (v.toList.eraseIdx n.toIndex))
  insert : ∀ v w : Value, Operator.insert.Edit [v, k, w] n.toIndex v.toList
    (n.toIndex ≤ v.toList.length) (.list (v.toList.insertIdx n.toIndex w))
  repeatText : ∀ (v : Value) (m : Machine),
    runOn Operator.repeatText.run (m.holding [v, k]) =
      let length := v.toText.length
      if maxLength < length * n.toIndex then
        (.error (.refusal (.repeatTooLong length n.toIndex v k)), m)
      else (.ok (), m.holding [.text (Text.replicate v.toText n.toIndex)])
  /-- Here it is the step, and the start and the end are taken in the same way. -/
  range : ∀ (x y : Value) (p q : Number), x.toNumber = .ok p → y.toNumber = .ok q →
    ∀ m : Machine, runOn Operator.range.run (m.holding [x, y, k]) =
      let length := Operator.rangeLength p.toIndex q.toIndex n.toIndex
      if n.toIndex = 0 then (.error (.refusal .zeroStep), m)
      else if maxLength < length then (.error (.refusal (.rangeTooLong length)), m)
      else (.ok (), m.holding
        [.list ((List.range length).map fun i => .ofNat (p.toIndex + i * n.toIndex))])
  decode : ∀ m : Machine, runOn Operator.decode.run (m.holding [k]) =
    match Operator.charOfCode? n.toCodePoint with
    | some c => (.ok (), m.holding [.text (String.singleton c)])
    | none => (.error (.refusal (.undecodable n n.toCodePoint)), m)
  exit : ∀ m : Machine, runOn Effect.exit.run (m.holding [k]) =
    (.error (.exit n.toStatus), { m with history := m.history.push (.exitRequested n.toStatus) })

theorem takenWhole {k : Value} {n : Number} (hk : k.toNumber = .ok n) : TakenWhole k n where
  get v := Operator.edit_get hk v
  set v w := Operator.edit_set hk v w
  delete v := Operator.edit_delete hk v
  insert v w := Operator.edit_insert hk v w
  repeatText v m := runOn_runRepeat hk v m
  range _ _ _ _ hx hy m := runOn_runRange hx hy hk m
  decode m := runOn_runDecode hk m
  exit m := by
    show runOn Effect.runExit _ = _
    rw [Effect.runExit, runOn_bind_of_ok (runOn_popNumber hk m)]
    rfl

/-- **Conversions to whole numbers saturate.**  Indexes, character codes and
statuses are the truncation of a number toward zero, clamped to their ranges; NaN
counts as zero and an infinity as the nearer bound.  They keep the order of numbers.
Where a command needs a whole number, it uses the operand by its conversion, and no
command ends with a whole number outside these ranges, whatever code it evaluates. -/
theorem conversions_saturate :
    Number.Saturates (fun n => n.toIndex) 0 (2 ^ 63 - 1) ∧
    Number.Saturates (fun n => n.toCodePoint) 0 (2 ^ 32 - 1) ∧
    Number.Saturates Number.toStatus (-2 ^ 31) (2 ^ 31 - 1) ∧
    (∀ (k : Value) (n : Number), k.toNumber = .ok n → TakenWhole k n) ∧
    ∀ (bound : Nat) (c : Command), EndsOnly Interrupt.InRange (c.run (evaluate bound) bound) :=
  ⟨Number.saturates_toIndex, Number.saturates_toCodePoint, Number.saturates_toStatus,
    fun _ _ => takenWhole, Command.inRange_run⟩

/-- The last number below `2 ^ 63` and this number itself, with the largest index
strictly between them; one half beyond the least status; the infinities; an index
that is a text, far beyond the end of a list; and an infinite status. -/
theorem conversions_saturate_limits :
    let below : Number := .signed false ⟨0x43dfffffffffffff, by decide⟩
    let limit : Number := .signed false ⟨0x43e0000000000000, by decide⟩
    let beyond : Number := .signed true ⟨0x41e0000000100000, by decide⟩
    let m : Machine := .bare
    (below.rational? = some (2 ^ 63 - 1024) ∧ below.toIndex = 2 ^ 63 - 1024 ∧
      limit.rational? = some (2 ^ 63) ∧ limit.toIndex = 2 ^ 63 - 1 ∧
      limit.less below = false ∧ below.toIndex ≤ limit.toIndex) ∧
    (beyond.rational? = some (-2 ^ 31 - 1 / 2) ∧ beyond.toStatus = -2 ^ 31) ∧
    Number.infinity.toCodePoint = 2 ^ 32 - 1 ∧ Number.infinity.neg.toIndex = 0 ∧
    runOn Operator.get.run (m.holding [.list [.truth true], .text "1e300"]) =
      (.error (.refusal (.indexOutOfRange (2 ^ 63 - 1) [.truth true])), m) ∧
    ∃ status m', runOn (Command.run (evaluate 1) 1 (.effect .exit))
      (m.holding [.number .infinity]) = (.error (.exit status), m') ∧
      (Interrupt.exit status).InRange := by
  intro below limit beyond m
  obtain ⟨hindex, hcode, hstatus, htaken, hends⟩ := conversions_saturate
  have hbelow : below.rational? = some (2 ^ 63 - 1024) := by
    have hvalue := Number.rational?_eq_div (m := ⟨0x43dfffffffffffff, by decide⟩)
      (n := 2 ^ 63 - 1024) false (by decide) one_ne_zero (by decide +kernel)
    norm_num at hvalue ⊢
    exact hvalue
  have hlimit : limit.rational? = some (2 ^ 63) := by
    have hvalue := Number.rational?_eq_div (m := ⟨0x43e0000000000000, by decide⟩)
      (n := 2 ^ 63) false (by decide) one_ne_zero (by decide +kernel)
    norm_num at hvalue ⊢
    exact hvalue
  have hbeyond : beyond.rational? = some (-2 ^ 31 - 1 / 2) := by
    have hvalue := Number.rational?_eq_div (m := ⟨0x41e0000000100000, by decide⟩)
      (n := 2 ^ 32 + 1) true (by decide) two_ne_zero (by decide +kernel)
    norm_num at hvalue ⊢
    exact hvalue
  have hbelowIndex : (below.toIndex : ℤ) = 2 ^ 63 - 1024 := by
    rw [hindex.finite below _ hbelow]
    norm_num [truncation, clamp]
  have hlimitIndex : (limit.toIndex : ℤ) = 2 ^ 63 - 1 := by
    rw [hindex.finite limit _ hlimit]
    norm_num [truncation, clamp]
  have hbeyondStatus : beyond.toStatus = -2 ^ 31 := by
    rw [hstatus.finite beyond _ hbeyond]
    norm_num [truncation, clamp]
  have hless : limit.less below = false := by decide
  have hmonotone := hindex.monotone below limit rfl rfl hless
  have hlast : (Number.infinity.toCodePoint : ℤ) = 2 ^ 32 - 1 := hcode.infinite false
  have hfirst : (Number.infinity.neg.toIndex : ℤ) = 0 := hindex.infinite true
  let far : Number := .signed false ⟨0x7e37e43c8800759c, by decide⟩
  have hfar : (Value.text "1e300").toNumber = .ok far := by decide +kernel
  have hfarIndex : far.toIndex = 2 ^ 63 - 1 := by decide +kernel
  have hget := (htaken _ _ hfar).get (.list [.truth true])
  rw [hfarIndex] at hget
  have hexit := (htaken (.number .infinity) .infinity rfl).exit m
  exact ⟨⟨hbelow, by omega, hlimit, by omega, hless, by omega⟩, ⟨hbeyond, hbeyondStatus⟩, by omega,
    by omega, hget.refused (by decide) m, _, _, hexit, hends 1 (.effect .exit) hexit⟩

end ReversePolish
