/-
ReversePolish/Proofs/Repetition.lean

Texts written several times.  The `j`-th character of the result is the one at
`j` modulo the length of the text (`Text.getElem?_replicate`).

`repeat` checks the length of the result before it builds it, by a comparison
of the count with a quotient that is rounded down.  For every length and every
count this is the comparison of the product with the limit
(`Operator.tooLong_iff`), and the empty text is never too long.  A refusal gives
back both operands as they were, of whatever kinds, and not what has been made of
them for the check.
-/
import ReversePolish.Proofs.Editing

namespace ReversePolish

open Routine

/-! ### Texts -/

namespace Text

theorem toList_replicate (text : String) (count : Nat) :
    (replicate text count).toList = (List.replicate count text.toList).flatten := by
  unfold replicate
  split
  · rename_i hempty
    obtain rfl : text = "" := String.isEmpty_iff.mp hempty
    simp
  · rw [String.toList_join, List.flatMap_def, List.map_replicate]

theorem length_replicate (text : String) (count : Nat) :
    (replicate text count).length = text.length * count := by
  rw [← String.length_toList, toList_replicate, List.length_flatten, List.map_replicate,
    List.sum_replicate_nat, String.length_toList, Nat.mul_comm]

/-- The characters of a text come round again and again. -/
theorem getElem?_flatten_replicate (cs : List Char) {count j : Nat} (h : j < cs.length * count) :
    (List.replicate count cs).flatten[j]? = cs[j % cs.length]? := by
  induction count generalizing j with
  | zero => exact absurd h (Nat.not_lt_zero j)
  | succ count ih =>
    rw [List.replicate_succ, List.flatten_cons]
    rcases Nat.lt_or_ge j cs.length with hfirst | hlater
    · rw [List.getElem?_append_left hfirst, Nat.mod_eq_of_lt hfirst]
    · have hrest : j - cs.length < cs.length * count := by
        rw [Nat.mul_succ] at h
        omega
      rw [List.getElem?_append_right hlater, ih hrest, Nat.mod_eq_sub_mod hlater]

theorem getElem?_replicate {text : String} {count j : Nat} (h : j < text.length * count) :
    (replicate text count).toList[j]? = text.toList[j % text.length]? := by
  rw [← String.length_toList] at h ⊢
  rw [toList_replicate, getElem?_flatten_replicate text.toList h]

end Text

/-! ### The check -/

/-- The quotient decides as the product does. -/
theorem Operator.tooLong_iff (length count : Nat) :
    length ≠ 0 ∧ maxLength / length < count ↔ maxLength < length * count := by
  rcases Nat.eq_zero_or_pos length with rfl | hpos
  · simp
  · rw [Nat.div_lt_iff_lt_mul hpos, Nat.mul_comm]
    exact and_iff_right (Nat.ne_of_gt hpos)

section Command

variable {times : Value} {n : Number}

/-- With the count brought to an index, `repeat` refuses or pushes one text. -/
theorem runOn_runRepeat (htimes : times.toNumber = .ok n) (subject : Value) (m : Machine) :
    runOn Operator.runRepeat (m.holding [subject, times]) =
      let length := subject.toText.length
      if maxLength < length * n.toIndex then
        (.error (.refusal (.repeatTooLong length n.toIndex subject times)), m)
      else (.ok (), m.holding [.text (Text.replicate subject.toText n.toIndex)]) := by
  have htop : runOn pop (m.holding [subject, times]) = (.ok times, m.holding [subject]) := rfl
  have hnext : runOn pop (m.holding [subject]) = (.ok subject, m) := rfl
  have hcount : runOn (ofExcept times.toNumber) m = (.ok n, m) := by
    rw [htimes]
    rfl
  rw [Operator.runRepeat, runOn_bind_of_ok htop, runOn_bind_of_ok hnext, runOn_bind_of_ok hcount]
  simp only [← Operator.tooLong_iff]
  by_cases hlong : subject.toText.length ≠ 0 ∧ maxLength / subject.toText.length < n.toIndex
  · simp only [if_pos hlong]
    rfl
  · simp only [if_neg hlong]
    rfl

/-- **Repeating respects the limit exactly, and all or nothing.**  Let the count be
brought to an index.  Then `repeat` refuses exactly if the result would have more
than `maxLength` characters, which is `2 ^ 28`; both operands are on the stack
again as they were, one error is logged, and nothing else has changed.  Otherwise
the result takes their place, with the characters of the text coming round as
often as the count says. -/
theorem execute_repeat (htimes : times.toNumber = .ok n) (subject : Value)
    (evaluate : String → Routine Unit) (bound : Nat) :
    let text := subject.toText
    let count := n.toIndex
    let run := execute evaluate bound "repeat"
    (∀ m : Machine, Operator.repeatText.Refuses [subject, times] m ↔
      maxLength < text.length * count) ∧
    (maxLength < text.length * count →
      ∀ m : Machine, ∃ m', runOn run (m.holding [subject, times]) = (.ok (), m') ∧
        Restored m times (subject :: m.stack.topFirst)
          ("Cannot repeat a string of length " ++ toString text.length ++ " " ++ toString count ++
            " times") m') ∧
    (text.length * count ≤ maxLength → ∃ result : String,
      Exchanges run [subject, times] [.text result] ∧ result.length = text.length * count ∧
      ∀ j < result.length, result.toList[j]? = text.toList[j % text.length]?) := by
  intro text count run
  have hrun := runOn_runRepeat htimes subject
  have hdone : text.length * count ≤ maxLength → ∀ m : Machine,
      runOn Operator.repeatText.run (m.holding [subject, times]) =
        (.ok (), m.holding [.text (Text.replicate text count)]) :=
    fun hfits m => (hrun m).trans (if_neg (Nat.not_lt.mpr hfits))
  refine ⟨fun m => Operator.refuses_iff ?_ ?_, fun hlong m => ?_, fun hfits => ?_⟩
  · intro hlong
    exact ⟨_, _, (hrun m).trans (if_pos hlong)⟩
  · intro hfits
    exact ⟨_, hdone (Nat.le_of_not_lt hfits) m⟩
  · have hrefuses := (hrun (m.noting "repeat")).trans (if_pos hlong)
    exact execute_refused_last .repeatText (.repeatTooLong text.length count subject times)
      [subject] rfl hrefuses evaluate bound
  · refine ⟨Text.replicate text count, .execute (c := .operator .repeatText) (.of_run (hdone hfits)),
      Text.length_replicate text count, fun j hj => ?_⟩
    rw [Text.length_replicate] at hj
    exact Text.getElem?_replicate hj

/-- A list taken for a text of six characters, by which the limit cannot be divided:
four characters short of it, and then two too many by a count that is a text. -/
theorem execute_repeat_limit :
    let run := execute (evaluate 1) 1 "repeat"
    let m : Machine := { Machine.bare with stack := .ofList [.truth false] }
    let subject : Value := .list [.truth true]
    (∃ result : String, Exchanges run [subject, .ofNat 44739242] [.text result] ∧
      result.length = maxLength - 4 ∧ result.toList[maxLength - 5]? = some ']') ∧
    ∃ m', runOn run (m.holding [subject, .text "44739243"]) = (.ok (), m') ∧
      Restored m (.text "44739243") [subject, .truth false]
        "Cannot repeat a string of length 6 44739243 times" m' := by
  intro run m subject
  have hfew : (Value.ofNat 44739242).toNumber = .ok (.ofNat 44739242) := rfl
  have hmany : (Value.text "44739243").toNumber = .ok (.ofNat 44739243) := by decide +kernel
  have hfewIndex : (Number.ofNat 44739242).toIndex = 44739242 := by decide +kernel
  have hmanyIndex : (Number.ofNat 44739243).toIndex = 44739243 := by decide +kernel
  have htext : subject.toText = "[true]" := by decide +kernel
  obtain ⟨-, -, hbuilt⟩ := execute_repeat hfew subject (evaluate 1) 1
  obtain ⟨-, hlong, -⟩ := execute_repeat hmany subject (evaluate 1) 1
  rw [hfewIndex, htext] at hbuilt
  rw [hmanyIndex, htext] at hlong
  obtain ⟨result, hexchanges, hlength, hcharacters⟩ := hbuilt (by decide)
  refine ⟨⟨result, hexchanges, hlength.trans (by decide), ?_⟩, hlong (by decide) m⟩
  rw [hcharacters _ (by rw [hlength]; decide)]
  decide

end Command

end ReversePolish
