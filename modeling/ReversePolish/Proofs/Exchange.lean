/-
ReversePolish/Proofs/Exchange.lean

Commands as exchanges on top of the stack.  `Routine.Exchanges r taken given`
says that, on every machine with the values `taken` on top of its stack, the
routine ends normally with the values `given` in their place, and that nothing
else happens but a note to the operator for each command.  Exchanges compose,
and values below them do not matter.

Of the commands that search in texts, each is the exchange of its operands for
the result of a function on their texts.  So the equations between splitting,
joining, replacing and finding hold of texts and of programs alike
(`search_laws`).
-/
import ReversePolish.Evaluate
import ReversePolish.Proofs.Search

namespace ReversePolish

/-- A machine with operands on its stack, the last one uppermost. -/
def Machine.holding (m : Machine) (operands : List Value) : Machine :=
  { m with stack := ⟨operands.reverse ++ m.stack.topFirst⟩ }

theorem Machine.holding_append (m : Machine) (below operands : List Value) :
    m.holding (below ++ operands) = (m.holding below).holding operands := by
  simp [holding]

/-- An event that shows in no channel of the program. -/
def Event.IsNote : Event → Prop
  | commandEntered _ => True
  | _ => False

namespace Routine

/-! ### Exchanges -/

/-- The routine puts the values `given` in place of the values `taken` on top
of the stack, whatever lies below them, and does nothing else. -/
def Exchanges (r : Routine Unit) (taken given : List Value) : Prop :=
  ∀ m : Machine, ∃ notes : History, (∀ e ∈ notes, e.IsNote) ∧
    runOn r (m.holding taken) =
      (.ok (), { m.holding given with history := m.history ++ notes })

variable {r r' : Routine Unit} {taken between given : List Value}

/-- A routine that leaves the history alone. -/
theorem Exchanges.of_run (h : ∀ m : Machine, runOn r (m.holding taken) = (.ok (), m.holding given)) :
    Exchanges r taken given := by
  intro m
  refine ⟨#[], by simp, ?_⟩
  rw [h m, Array.append_empty]
  rfl

/-- One exchange after the other. -/
theorem Exchanges.trans (h : Exchanges r taken between) (h' : Exchanges r' between given) :
    Exchanges (do r; r') taken given := by
  intro m
  obtain ⟨notes, hnotes, hrun⟩ := h m
  obtain ⟨notes', hnotes', hrun'⟩ := h' { m with history := m.history ++ notes }
  refine ⟨notes ++ notes', fun e he => ?_, ?_⟩
  · rcases Array.mem_append.mp he with he | he
    · exact hnotes e he
    · exact hnotes' e he
  · have hmiddle : { m.holding between with history := m.history ++ notes } =
        Machine.holding { m with history := m.history ++ notes } between := rfl
    rw [runOn_bind_of_ok hrun, hmiddle, hrun', ← Array.append_assoc]
    rfl

/-- What lies below stays. -/
theorem exchanges_push (below : List Value) (v : Value) : Exchanges (push v) below (below ++ [v]) := by
  refine .of_run fun m => ?_
  rw [Machine.holding_append]
  rfl

/-- A command whose routine is an exchange. -/
theorem Exchanges.execute {evaluate : String → Routine Unit} {bound : Nat} {c : Command}
    (h : Exchanges (c.run evaluate bound) taken given) :
    Exchanges (execute evaluate bound c.name) taken given := by
  intro m
  obtain ⟨notes, hnotes, hrun⟩ := h (m.noting c.name)
  refine ⟨#[.commandEntered c.name] ++ notes, fun e he => ?_, ?_⟩
  · rcases Array.mem_append.mp he with he | he
    · obtain rfl := Array.mem_singleton.mp he
      trivial
    · exact hnotes e he
  · have hnoted : (m.holding taken).noting c.name = (m.noting c.name).holding taken := rfl
    rw [runOn_execute_name, hnoted, runOn_recovering_of_ne hrun (by simp), ← Array.append_assoc,
      Array.append_singleton]
    rfl

/-- A number on top of the stack. -/
theorem runOn_popNumber {x : Value} {p : Number} (hx : x.toNumber = .ok p) (m : Machine) :
    runOn popNumber (m.holding [x]) = (.ok p, m) := by
  have hpop : runOn pop (m.holding [x]) = (.ok x, m) := rfl
  rw [popNumber, runOn_bind_of_ok hpop, hx]
  rfl

/-- An index on top of the stack. -/
theorem runOn_popIndex {x : Value} {p : Number} (hx : x.toNumber = .ok p) (m : Machine) :
    runOn popIndex (m.holding [x]) = (.ok p.toIndex, m) := by
  rw [popIndex, runOn_bind_of_ok (runOn_popNumber hx m)]
  rfl

end Routine

open Routine

/-! ### Commands on texts -/

/-- A list of texts, taken for texts. -/
theorem Value.toTexts_ofTexts (texts : List String) :
    (ofTexts texts).toList.map toText = texts := by
  simp [ofTexts, toList, toText, Function.comp_def]

section Commands

variable (evaluate : String → Routine Unit) (bound : Nat) (x y z : Value)

/-- Two operands as texts. -/
theorem exchanges_onTexts (f : String → String → Value) :
    Exchanges (Operator.onTexts f) [x, y] [f x.toText y.toText] :=
  .of_run fun _ => rfl

theorem exchanges_split :
    Exchanges (execute evaluate bound Operator.split.name) [x, y]
      [.ofTexts (Text.split x.toText y.toText)] :=
  .execute (c := .operator .split) (exchanges_onTexts x y _)

theorem exchanges_find :
    Exchanges (execute evaluate bound Operator.find.name) [x, y]
      [.truth (Text.contains x.toText y.toText)] :=
  .execute (c := .operator .find) (exchanges_onTexts x y _)

theorem exchanges_replace :
    Exchanges (execute evaluate bound Operator.replace.name) [x, y, z]
      [.text (Text.replace x.toText y.toText z.toText)] :=
  .execute (c := .operator .replace) (.of_run fun _ => rfl)

theorem exchanges_join :
    Exchanges (execute evaluate bound Operator.join.name) [x, y]
      [.text (Text.join y.toText (x.toList.map Value.toText))] :=
  .execute (c := .operator .join) (.of_run fun _ => rfl)

theorem exchanges_join_texts (texts : List String) :
    Exchanges (execute evaluate bound Operator.join.name) [.ofTexts texts, y]
      [.text (Text.join y.toText texts)] := by
  have hjoin := exchanges_join evaluate bound (.ofTexts texts) y
  rwa [Value.toTexts_ofTexts] at hjoin

end Commands

/-! ### Searching -/

/-- The pieces between the matches of a delimiter, from left to right: there is
no match inside a piece, and the next one stands right after it. -/
structure Text.Parted (delimiter : String) (pieces : List String) : Prop where
  free : ∀ piece ∈ pieces, ¬delimiter.toList <:+: piece.toList
  first : ∀ piece ∈ pieces.dropLast, FirstAfter delimiter.toList piece.toList

theorem Text.parted_split (text : String) {delimiter : String} (h : delimiter ≠ "") :
    Parted delimiter (split text delimiter) where
  free := by
    intro piece hpiece
    have hne : delimiter.toList ≠ [] := fun hnil => h (String.toList_eq_nil_iff.mp hnil)
    exact (cuts_split text h).unmatched hne _ (List.mem_map_of_mem hpiece)
  first := by
    intro piece hpiece
    refine (cuts_split text h).firstAfter _ ?_
    rw [← List.map_dropLast]
    exact List.mem_map_of_mem hpiece

/-- The laws of searching, for texts. -/
structure Text.SearchLaws : Prop where
  join_split : ∀ text delimiter, join delimiter (split text delimiter) = text
  replace_eq : ∀ text before after, replace text before after = join after (split text before)
  contains_iff : ∀ text delimiter,
    contains text delimiter = true ↔ 1 < (split text delimiter).length
  parted : ∀ text delimiter, delimiter ≠ "" → Parted delimiter (split text delimiter)
  split_join : ∀ (c : Char) (texts : List String), texts ≠ [] →
    (∀ text ∈ texts, c ∉ text.toList) →
    split (join (String.singleton c) texts) (String.singleton c) = texts

/-- The same laws for commands, given how to run one.  Operands of any kind are
taken for texts. -/
structure SearchCommandLaws (run : Operator → Routine Unit) : Prop where
  join_split : ∀ x y : Value,
    Exchanges (do run .split; push y; run .join) [x, y] [.text x.toText]
  replace_eq : ∀ x y z : Value, ∃ result : String,
    Exchanges (run .replace) [x, y, z] [.text result] ∧
    Exchanges (do run .split; push z; run .join) [x, y] [.text result]
  split_find : ∀ x y : Value, ∃ pieces : List String,
    Exchanges (run .split) [x, y] [.ofTexts pieces] ∧
    Exchanges (run .find) [x, y] [.truth (1 < pieces.length)] ∧
    (y.toText ≠ "" → Text.Parted y.toText pieces)
  split_join : ∀ (c : Char) (texts : List String), texts ≠ [] →
    (∀ text ∈ texts, c ∉ text.toList) →
    Exchanges (do run .join; push (.text (String.singleton c)); run .split)
      [.ofTexts texts, .text (String.singleton c)] [.ofTexts texts]

/-- To split, and to join what comes of it by another text. -/
theorem exchanges_split_join (evaluate : String → Routine Unit) (bound : Nat) (x y z : Value) :
    Exchanges
      (do execute evaluate bound Operator.split.name
          push z
          execute evaluate bound Operator.join.name)
      [x, y] [.text (Text.join z.toText (Text.split x.toText y.toText))] :=
  (exchanges_split evaluate bound x y).trans
    ((exchanges_push _ z).trans (exchanges_join_texts evaluate bound z _))

/-- **Splitting, joining, replacing and finding are one algebra**, as functions
on texts and as commands on the stack. -/
theorem search_laws :
    Text.SearchLaws ∧ ∀ (evaluate : String → Routine Unit) (bound : Nat),
      SearchCommandLaws fun op => execute evaluate bound op.name := by
  refine ⟨⟨Text.join_split, Text.replace_eq, Text.contains_iff, fun text _ => Text.parted_split text,
    fun _ _ => Text.split_join⟩, fun evaluate bound => ⟨?_, ?_, ?_, ?_⟩⟩
  · intro x y
    have h := exchanges_split_join evaluate bound x y y
    rwa [Text.join_split] at h
  · intro x y z
    refine ⟨_, exchanges_replace evaluate bound x y z, ?_⟩
    rw [Text.replace_eq]
    exact exchanges_split_join evaluate bound x y z
  · intro x y
    refine ⟨_, exchanges_split evaluate bound x y, ?_, Text.parted_split x.toText⟩
    have hfind : Text.contains x.toText y.toText =
        decide (1 < (Text.split x.toText y.toText).length) := by
      rw [Bool.eq_iff_iff, Text.contains_iff, decide_eq_true_iff]
    rw [← hfind]
    exact exchanges_find evaluate bound x y
  · intro c texts hne htexts
    have h := exchanges_split evaluate bound (.text (Text.join (String.singleton c) texts))
      (.text (String.singleton c))
    rw [Value.toText, Value.toText, Text.split_join hne htexts] at h
    exact (exchanges_join_texts evaluate bound _ texts).trans ((exchanges_push _ _).trans h)

/-- Of two matches that overlap only the first one counts, and empty pieces
are pieces too. -/
theorem search_laws_overlapping :
    Text.split "aaa" "aa" = ["", "a"] ∧ Text.Parted "aa" (Text.split "aaa" "aa") ∧
    Text.split (Text.join (String.singleton ',') ["", "b", ""]) (String.singleton ',') =
      ["", "b", ""] := by
  refine ⟨by decide, search_laws.1.parted "aaa" "aa" (by decide),
    search_laws.1.split_join ',' ["", "b", ""] (by decide) ?_⟩
  intro text htext
  have hall : ["", "b", ""].all (fun text => !text.toList.contains ',') = true := by decide
  simpa using List.all_eq_true.mp hall text htext

end ReversePolish
