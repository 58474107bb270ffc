/-
ReversePolish/Proofs/Range.lean

Ranges of numbers.  The operands of `range` are brought to indexes, whatever
numbers they are, so everything about it is a matter of natural numbers.  An
index `i` belongs to the range exactly if `start + i * step` lies below `stop`
(`Operator.lt_rangeLength_iff`).  Hence the length of the range is the
quotient of its extent by the step, rounded up.

The main result is `execute_range`: a step of zero and a range that would be too
long are refused with an empty list in place of the operands, and every other
range is built in full, with each of its elements rounded on its own.
-/
import Mathlib.Data.Rat.Floor
import ReversePolish.Proofs.Restoring
import ReversePolish.Proofs.Rounding

namespace ReversePolish

open Routine

/-! ### The length -/

namespace Operator

variable {start stop step : ℕ}

/-- Up to the length of a range its elements lie below the end. -/
theorem lt_rangeLength_iff (hstep : 0 < step) {i : ℕ} :
    i < rangeLength start stop step ↔ start + i * step < stop := by
  rw [rangeLength, ← Nat.succ_le_iff, Nat.le_div_iff_mul_le hstep, Nat.succ_mul]
  omega

/-- The length of a range is its extent over the step, rounded up; it is zero
if the range ends before it starts. -/
theorem rangeLength_eq_ceil (hstep : 0 < step) :
    rangeLength start stop step = ⌈((stop : ℚ) - start) / step⌉₊ := by
  have hpos : (0 : ℚ) < step := by exact_mod_cast hstep
  refine eq_of_forall_lt_iff fun i => ?_
  rw [lt_rangeLength_iff hstep, Nat.lt_ceil, lt_div_iff₀ hpos, lt_sub_iff_add_lt']
  exact_mod_cast Iff.rfl

end Operator

/-! ### The command -/

section Command

variable {x y z : Value} {p q r : Number}

/-- With its operands brought to indexes, `range` refuses or pushes one list. -/
theorem runOn_runRange (hx : x.toNumber = .ok p) (hy : y.toNumber = .ok q)
    (hz : z.toNumber = .ok r) (m : Machine) :
    runOn Operator.runRange (m.holding [x, y, z]) =
      let length := Operator.rangeLength p.toIndex q.toIndex r.toIndex
      if r.toIndex = 0 then (.error (.refusal .zeroStep), m)
      else if maxLength < length then (.error (.refusal (.rangeTooLong length)), m)
      else (.ok (), m.holding
        [.list ((List.range length).map fun i => .ofNat (p.toIndex + i * r.toIndex))]) := by
  have hstep : runOn popIndex (m.holding [x, y, z]) = (.ok r.toIndex, m.holding [x, y]) :=
    runOn_popIndex hz (m.holding [x, y])
  have hstop : runOn popIndex (m.holding [x, y]) = (.ok q.toIndex, m.holding [x]) :=
    runOn_popIndex hy (m.holding [x])
  rw [Operator.runRange, runOn_bind_of_ok hstep, runOn_bind_of_ok hstop,
    runOn_bind_of_ok (runOn_popIndex hx m)]
  by_cases hzero : r.toIndex = 0
  · simp only [hzero, if_true]
    rfl
  · by_cases hlong : maxLength < Operator.rangeLength p.toIndex q.toIndex r.toIndex
    · simp only [hzero, hlong, if_true, if_false]
      rfl
    · simp only [hzero, hlong, if_false]
      rfl

/-- **Ranges refuse and count exactly.**  Let three operands, brought to
indexes, be the start, the end and the step of a range, and let `count` be the
number of steps that stay below the end.  Then `range` ends normally and puts
one list in their place.  If the step is zero, or if there are more than
`maxLength` elements, the list is empty and one error is logged.  Otherwise it
has `count` elements, each of them the number nearest to its place in the range,
and nothing is logged. -/
theorem execute_range (hx : x.toNumber = .ok p) (hy : y.toNumber = .ok q)
    (hz : z.toNumber = .ok r) (evaluate : String → Routine Unit) (bound : Nat) :
    let start := p.toIndex
    let stop := q.toIndex
    let step := r.toIndex
    let count := ⌈((stop : ℚ) - start) / step⌉₊
    let range := execute evaluate bound "range"
    (step = 0 → ∀ m : Machine, ∃ m', runOn range (m.holding [x, y, z]) = (.ok (), m') ∧
      Restored m (.list []) m.stack.topFirst "range step must be at least 1" m') ∧
    (0 < step → maxLength < count →
      ∀ m : Machine, ∃ m', runOn range (m.holding [x, y, z]) = (.ok (), m') ∧
        Restored m (.list []) m.stack.topFirst
          ("range of " ++ toString count ++ " numbers is too long") m') ∧
    (0 < step → count ≤ maxLength → ∃ items : List Value,
      Exchanges range [x, y, z] [.list items] ∧ items.length = count ∧
      ∀ i < count, ∃ magnitude, items[i]? = some (.number (.signed false magnitude)) ∧
        Magnitude.Rounds (start + i * step) magnitude) := by
  intro start stop step count range
  have hrun := runOn_runRange hx hy hz
  have hcount : 0 < step → count = Operator.rangeLength start stop step := fun hpos =>
    (Operator.rangeLength_eq_ceil hpos).symm
  refine ⟨fun hzero m => ?_, fun hpos hlong m => ?_, fun hpos hfits => ?_⟩
  · have hrefuses := (hrun (m.noting "range")).trans (if_pos hzero)
    exact execute_refused .range .zeroStep rfl hrefuses evaluate bound
  · rw [hcount hpos] at hlong ⊢
    have hrefuses := (hrun (m.noting "range")).trans ((if_neg hpos.ne').trans (if_pos hlong))
    exact execute_refused .range (.rangeTooLong _) rfl hrefuses evaluate bound
  · rw [hcount hpos] at hfits ⊢
    let items : List Value :=
      (List.range (Operator.rangeLength start stop step)).map fun i => .ofNat (start + i * step)
    refine ⟨items, .execute (c := .operator .range) (.of_run fun m => ?_), ?_, fun i hi => ?_⟩
    · exact (hrun m).trans ((if_neg hpos.ne').trans (if_neg (Nat.not_lt.mpr hfits)))
    · rw [List.length_map, List.length_range]
    · refine ⟨.ofNat (start + i * step), ?_, ?_⟩
      · rw [List.getElem?_map, List.getElem?_range hi]
        rfl
      · exact_mod_cast Magnitude.rounds_ofNat (start + i * step)

/-- From one to infinity, which ends at the largest index: by steps that are no
number at all, by steps of one, and by steps so wide that only two elements fit,
the second of which has to be rounded. -/
theorem execute_range_saturated :
    let range := execute (evaluate 1) 1 "range"
    let m : Machine := { Machine.bare with stack := .ofList [.truth false] }
    let upTo (step : Number) : List Value := [.truth true, .number .infinity, .number step]
    (∃ m', runOn range (m.holding (upTo .nan)) = (.ok (), m') ∧
      Restored m (.list []) [.truth false] "range step must be at least 1" m') ∧
    (∃ m', runOn range (m.holding (upTo .one)) = (.ok (), m') ∧
      Restored m (.list []) [.truth false]
        "range of 9223372036854775806 numbers is too long" m') ∧
    ∃ items : List Value, Exchanges range (upTo (.ofNat (2 ^ 62))) [.list items] ∧
      items.length = 2 ∧
      ∃ magnitude, items[1]? = some (.number (.signed false magnitude)) ∧
        Magnitude.Rounds (1 + 2 ^ 62) magnitude := by
  intro range m upTo
  have hstart : (Value.truth true).toNumber = .ok .one := rfl
  have hstop : (Value.number .infinity).toNumber = .ok .infinity := rfl
  have hone : Number.one.toIndex = 1 := by decide +kernel
  have hlast : Number.infinity.toIndex = 2 ^ 63 - 1 := by decide +kernel
  have hwide : (Number.ofNat (2 ^ 62)).toIndex = 2 ^ 62 := by decide +kernel
  have hmany : ⌈(((2 ^ 63 - 1 : ℕ) : ℚ) - (1 : ℕ)) / (1 : ℕ)⌉₊ = 9223372036854775806 :=
    (Operator.rangeLength_eq_ceil (by decide)).symm.trans (by decide)
  have htwo : ⌈(((2 ^ 63 - 1 : ℕ) : ℚ) - (1 : ℕ)) / (2 ^ 62 : ℕ)⌉₊ = 2 :=
    (Operator.rangeLength_eq_ceil (by decide)).symm.trans (by decide)
  obtain ⟨hzero, -⟩ := execute_range hstart hstop (z := .number .nan) rfl (evaluate 1) 1
  obtain ⟨-, hlong, -⟩ := execute_range hstart hstop (z := .number .one) rfl (evaluate 1) 1
  obtain ⟨-, -, hbuilt⟩ :=
    execute_range hstart hstop (z := .number (.ofNat (2 ^ 62))) rfl (evaluate 1) 1
  rw [hone, hlast, hmany] at hlong
  rw [hone, hlast, hwide, htwo] at hbuilt
  obtain ⟨items, hexchanges, hlength, helements⟩ := hbuilt (by decide) (by decide)
  obtain ⟨magnitude, hitem, hrounds⟩ := helements 1 (by decide)
  refine ⟨hzero rfl m, hlong (by decide) (by decide) m, items, hexchanges, hlength, magnitude,
    hitem, ?_⟩
  norm_num at hrounds ⊢
  exact hrounds

end Command

end ReversePolish
