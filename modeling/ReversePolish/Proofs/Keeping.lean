/-
ReversePolish/Proofs/Keeping.lean

What the commands keep.  A machine is *orderly* if all that it holds and all
that its host may give it is written in plain letters, that is without the two
letters that are only taken for an `i`, and its clock shows nothing that is no
value.  A text in plain letters is never a misspelled number, so no operand of
an orderly machine is refused as one.

`Routine.Keeps allowed post` says of a routine that it leaves an orderly
machine orderly, that its result has the property `post`, and that otherwise
it ends with an interrupt that is `allowed`.  Every operator but `decode`
keeps machines orderly, and so does every effect; `decode` alone can make a
letter that nobody has handed in.
-/
import ReversePolish.Evaluate
import ReversePolish.Proofs.Host

namespace ReversePolish

/-! ### Plain letters -/

/-- A letter other than the dotted capital `İ` and the dotless small `ı`. -/
def Plain (c : Char) : Prop := c ≠ 'İ' ∧ c ≠ 'ı'

instance : DecidablePred Plain := fun c => inferInstanceAs (Decidable (c ≠ 'İ' ∧ c ≠ 'ı'))

theorem coversAscii_plain : CoversAscii Plain := by
  intro c hc
  constructor
  · rintro rfl
    exact absurd hc (by decide)
  · rintro rfl
    exact absurd hc (by decide)

/-- In plain letters no number is misspelled. -/
theorem Numeral.read_ne_misspelled {s : String} (h : Written Plain s) : read s ≠ .misspelled := by
  have hsame : ∀ c ∈ s.toList, plainI c = id c := fun c hc =>
    if_neg (not_or.mpr (h c hc))
  have hplain : s.toList.map plainI = s.toList := by
    rw [List.map_congr_left hsame, List.map_id]
  intro hread
  unfold read at hread
  -- with nothing to replace, both attempts read the same text
  rw [hplain] at hread
  cases hparse : parse? s.toList <;> simp [hparse] at hread

theorem Value.Written.toNumber {v : Value} (h : v.Written Plain) : ∃ n, v.toNumber = .ok n := by
  cases v with
  | text s =>
    have hread := Numeral.read_ne_misspelled (written_text.mp h)
    rw [Value.toNumber, numberOfText]
    cases hs : Numeral.read s with
    | number n => exact ⟨n, rfl⟩
    | misspelled => exact absurd hs hread
    | other => exact ⟨.zero, rfl⟩
  | number n => exact ⟨n, rfl⟩
  | truth b => exact ⟨_, rfl⟩
  | list items => exact ⟨_, rfl⟩

theorem Value.Written.exists_cast {v : Value} (h : v.Written Plain) (kindName : String) :
    ∃ w, v.cast kindName = .ok w ∧ w.Written Plain := by
  have hexists : ∃ w, v.cast kindName = .ok w := by
    unfold Value.cast
    split
    · rename_i kind _
      cases kind with
      | number =>
        obtain ⟨n, hn⟩ := h.toNumber
        exact ⟨.number n, by rw [Value.coerce, hn]; rfl⟩
      | text | truth | list => exact ⟨_, rfl⟩
    · exact ⟨v, rfl⟩
  obtain ⟨w, hw⟩ := hexists
  exact ⟨w, hw, h.cast coversAscii_plain hw⟩

/-! ### Orderly machines -/

structure Machine.Orderly (m : Machine) : Prop where
  written : m.Written Plain
  clock : ∀ d ∈ m.host.clock.readings, ∃ v, d.toValue = .ok v

namespace Machine.Orderly

variable {m : Machine}

theorem push (h : m.Orderly) {v : Value} (hv : v.Written Plain) :
    Machine.Orderly { m with stack := m.stack.push v } where
  written :=
    { h.written with
      stack := by
        intro w hw
        rcases List.mem_cons.mp hw with rfl | hw
        · exact hv
        · exact h.written.stack w hw }
  clock := h.clock

/-- A stack with some of the values only. -/
theorem shrink (h : m.Orderly) {stack : Stack} (hstack : stack.topFirst ⊆ m.stack.topFirst) :
    Machine.Orderly { m with stack } where
  written := { h.written with stack := fun v hv => h.written.stack v (hstack hv) }
  clock := h.clock

theorem withStore (h : m.Orderly) {store : Store} (hstore : store.Written Plain) :
    Machine.Orderly { m with store } where
  written := { h.written with store := hstore }
  clock := h.clock

theorem record (h : m.Orderly) (history : History) : Machine.Orderly { m with history } where
  written := { h.written with }
  clock := h.clock

theorem gather (h : m.Orderly) (count : Nat) :
    Machine.Orderly { m with stack := m.stack.gather count } := by
  have hrest : Machine.Orderly { m with stack := ⟨m.stack.topFirst.drop count⟩ } :=
    h.shrink (List.drop_subset ..)
  refine hrest.push (Value.written_list.mpr fun v hv => ?_)
  exact h.written.stack v (List.mem_of_mem_take (List.mem_reverse.mp hv))

end Machine.Orderly

namespace Routine

variable {α β : Type} {allowed : Interrupt → Prop} {post : α → Prop}

/-! ### Keeping machines orderly -/

/-- An orderly machine is left, with a result that has a given property or an
interrupt that is allowed. -/
def Kept (allowed : Interrupt → Prop) (post : α → Prop) : Except Interrupt α × Machine → Prop
  | (.ok a, m) => post a ∧ m.Orderly
  | (.error interrupt, m) => allowed interrupt ∧ m.Orderly

/-- On every orderly machine. -/
def Keeps (allowed : Interrupt → Prop) (post : α → Prop) (r : Routine α) : Prop :=
  ∀ m : Machine, m.Orderly → Kept allowed post (runOn r m)

theorem keeps_pure {a : α} (h : post a) : Keeps allowed post (pure a) := fun _ hm => ⟨h, hm⟩

theorem keeps_throw {interrupt : Interrupt} (h : allowed interrupt) :
    Keeps allowed post (throw interrupt) := fun _ hm => ⟨h, hm⟩

theorem Keeps.bind {r : Routine α} {next : α → Routine β} {last : β → Prop}
    (hr : Keeps allowed post r) (hnext : ∀ a, post a → Keeps allowed last (next a)) :
    Keeps allowed last (r >>= next) := by
  intro m hm
  have hfirst := hr m hm
  rcases hrun : runOn r m with ⟨interrupt | a, m₁⟩
  · rw [hrun] at hfirst
    rw [runOn_bind_of_error hrun]
    exact hfirst
  · rw [hrun] at hfirst
    rw [runOn_bind_of_ok hrun]
    exact hnext a hfirst.1 m₁ hfirst.2

theorem keeps_record (e : Event) : Keeps allowed (fun _ => True) (record e) :=
  fun _ hm => ⟨trivial, hm.record _⟩

theorem keeps_push {v : Value} (hv : v.Written Plain) :
    Keeps allowed (fun _ => True) (push v) := fun _ hm => ⟨trivial, hm.push hv⟩

theorem keeps_pop : Keeps allowed (Value.Written Plain) pop := by
  intro m hm
  rw [runOn_pop]
  rcases hstack : m.stack.topFirst with - | ⟨v, rest⟩
  · rw [Stack.pop?, hstack]
    exact ⟨Value.written_blank, hm.record _⟩
  · rw [Stack.pop?, hstack]
    refine ⟨hm.written.stack v (hstack ▸ List.mem_cons_self), hm.shrink ?_⟩
    rw [hstack]
    exact List.subset_cons_self v rest

/-! ### Operands -/

theorem keeps_toNumber {v : Value} (hv : v.Written Plain) :
    Keeps allowed (fun _ => True) (ofExcept v.toNumber) := by
  obtain ⟨n, hn⟩ := hv.toNumber
  rw [hn]
  exact keeps_pure trivial

theorem keeps_popNumber : Keeps allowed (fun _ => True) popNumber :=
  keeps_pop.bind fun _ hv => keeps_toNumber hv

theorem keeps_popText : Keeps allowed (Written Plain) popText :=
  keeps_pop.bind fun _ hv => keeps_pure (hv.toText coversAscii_plain)

theorem keeps_popTruth : Keeps allowed (fun _ => True) popTruth :=
  keeps_pop.bind fun _ _ => keeps_pure trivial

theorem keeps_popList : Keeps allowed (fun items => ∀ v ∈ items, v.Written Plain) popList :=
  keeps_pop.bind fun _ hv => keeps_pure hv.toList

theorem keeps_popIndex : Keeps allowed (fun _ => True) popIndex :=
  keeps_popNumber.bind fun _ _ => keeps_pure trivial

end Routine

/-! ### Refusals -/

/-- How a run on an orderly machine may end early: by an exit, by a prompt
that nobody answers, or because the bound was too small. -/
def Interrupt.Expected : Interrupt → Prop
  | exit _ | exhausted => True
  | fault cause => cause = .noReply
  | refusal _ => False

/-- A command may also refuse its operands, and gives back plain ones. -/
def Interrupt.Tolerable : Interrupt → Prop
  | refusal cause => ∀ v ∈ cause.restore, v.Written Plain
  | interrupt => interrupt.Expected

open Routine

theorem keeps_refuse {α : Type} {post : α → Prop} {cause : Refusal}
    (h : ∀ v ∈ cause.restore, v.Written Plain) :
    Keeps Interrupt.Tolerable post (refuse cause) := keeps_throw h

/-- Nothing happens after a refusal. -/
theorem keeps_refuse_bind {α β : Type} {next : α → Routine β} {last : β → Prop} {cause : Refusal}
    (h : ∀ v ∈ cause.restore, v.Written Plain) :
    Keeps Interrupt.Tolerable last (refuse cause >>= next) := fun _ hm => ⟨h, hm⟩

/-- An index is refused along with the list it was for. -/
theorem written_restore_index {items : List Value} (h : ∀ v ∈ items, v.Written Plain)
    (index : Nat) : ∀ v ∈ (Refusal.indexOutOfRange index items).restore, v.Written Plain := by
  intro v hv
  obtain rfl := List.mem_singleton.mp hv
  exact Value.written_list.mpr h

/-! ### Operators -/

namespace Operator

theorem keeps_onNumbers {f : Number → Number → Value} (hf : ∀ a b, (f a b).Written Plain) :
    Keeps Interrupt.Tolerable (fun _ => True) (onNumbers f) :=
  keeps_popNumber.bind fun _ _ => keeps_popNumber.bind fun _ _ => keeps_push (hf _ _)

theorem keeps_onTruths (f : Bool → Bool → Bool) :
    Keeps Interrupt.Tolerable (fun _ => True) (onTruths f) :=
  keeps_popTruth.bind fun _ _ => keeps_popTruth.bind fun _ _ => keeps_push (Value.written_truth _)

theorem keeps_onTexts {f : String → String → Value}
    (hf : ∀ a b, Written Plain a → Written Plain b → (f a b).Written Plain) :
    Keeps Interrupt.Tolerable (fun _ => True) (onTexts f) :=
  keeps_popText.bind fun _ hb => keeps_popText.bind fun _ ha => keeps_push (hf _ _ ha hb)

theorem keeps_runRepeat : Keeps Interrupt.Tolerable (fun _ => True) runRepeat := by
  refine keeps_pop.bind fun times htimes => keeps_pop.bind fun subject hsubject => ?_
  apply (keeps_toNumber htimes).bind
  intro n _
  dsimp only
  split
  · -- both operands are given back
    apply keeps_refuse_bind
    intro v hv
    rcases List.mem_cons.mp hv with rfl | hv
    · exact hsubject
    · obtain rfl := List.mem_singleton.mp hv
      exact htimes
  · have htext := hsubject.toText coversAscii_plain
    exact keeps_push (Value.written_text.mpr (Text.written_replicate htext _))

theorem keeps_runEncode : Keeps Interrupt.Tolerable (fun _ => True) runEncode := by
  apply keeps_popText.bind
  intro s _
  cases s.toList with
  | nil =>
    apply keeps_refuse
    intro v hv
    obtain rfl := List.mem_singleton.mp hv
    exact Value.written_blank
  | cons c rest => exact keeps_push (Value.written_number _)

theorem keeps_runReplace : Keeps Interrupt.Tolerable (fun _ => True) runReplace := by
  refine keeps_popText.bind fun after hafter => keeps_popText.bind fun before _ => ?_
  refine keeps_popText.bind fun text htext => keeps_push (Value.written_text.mpr ?_)
  exact Text.written_replace htext hafter before

theorem written_toTexts {items : List Value} (h : ∀ v ∈ items, v.Written Plain) :
    ∀ s ∈ items.map Value.toText, Written Plain s := by
  intro s hs
  obtain ⟨v, hv, rfl⟩ := List.mem_map.mp hs
  exact (h v hv).toText coversAscii_plain

theorem keeps_runJoin : Keeps Interrupt.Tolerable (fun _ => True) runJoin := by
  refine keeps_popText.bind fun delimiter hdelimiter => keeps_popList.bind fun items hitems => ?_
  exact keeps_push (Value.written_text.mpr (Text.written_join hdelimiter (written_toTexts hitems)))

theorem keeps_runGet : Keeps Interrupt.Tolerable (fun _ => True) runGet := by
  refine keeps_popIndex.bind fun index _ => keeps_popList.bind fun items hitems => ?_
  cases hitem : items[index]? with
  | some v => exact keeps_push (hitems v (List.mem_of_getElem? hitem))
  | none => exact keeps_refuse (written_restore_index hitems index)

/-- A list is exchanged for an edited one, or the index is refused. -/
theorem keeps_edit {fits : Prop} [Decidable fits] {items edited : List Value} (index : Nat)
    (hitems : ∀ v ∈ items, v.Written Plain) (hedited : fits → ∀ v ∈ edited, v.Written Plain) :
    Keeps Interrupt.Tolerable (fun _ => True)
      (if fits then push (.list edited) else refuse (.indexOutOfRange index items)) := by
  split
  · exact keeps_push (Value.written_list.mpr (hedited ‹_›))
  · exact keeps_refuse (written_restore_index hitems index)

theorem keeps_runSet : Keeps Interrupt.Tolerable (fun _ => True) runSet := by
  refine keeps_pop.bind fun v hv => keeps_popIndex.bind fun index _ => ?_
  refine keeps_popList.bind fun items hitems => keeps_edit index hitems fun _ w hw => ?_
  rcases List.mem_or_eq_of_mem_set hw with hw | rfl
  · exact hitems w hw
  · exact hv

theorem keeps_runDelete : Keeps Interrupt.Tolerable (fun _ => True) runDelete := by
  refine keeps_popIndex.bind fun index _ => keeps_popList.bind fun items hitems => ?_
  exact keeps_edit index hitems fun _ w hw => hitems w (List.mem_of_mem_eraseIdx hw)

theorem keeps_runInsert : Keeps Interrupt.Tolerable (fun _ => True) runInsert := by
  refine keeps_pop.bind fun v hv => keeps_popIndex.bind fun index _ => ?_
  refine keeps_popList.bind fun items hitems => keeps_edit index hitems fun hfits w hw => ?_
  rcases (List.mem_insertIdx hfits).mp hw with rfl | hw
  · exact hv
  · exact hitems w hw

theorem keeps_runRange : Keeps Interrupt.Tolerable (fun _ => True) runRange := by
  refine keeps_popIndex.bind fun step _ => keeps_popIndex.bind fun stop _ => ?_
  apply keeps_popIndex.bind
  intro start _
  have hempty : ∀ v ∈ [Value.list []], v.Written Plain := by
    intro v hv
    obtain rfl := List.mem_singleton.mp hv
    exact Value.written_list.mpr nofun
  dsimp only
  split
  · exact keeps_refuse_bind hempty
  split
  · exact keeps_refuse_bind hempty
  · refine keeps_push (Value.written_list.mpr fun v hv => ?_)
    obtain ⟨i, -, rfl⟩ := List.mem_map.mp hv
    exact Value.written_number _

theorem keeps_runCast : Keeps Interrupt.Tolerable (fun _ => True) runCast := by
  refine keeps_popText.bind fun kindName _ => keeps_pop.bind fun v hv => ?_
  obtain ⟨w, hcast, hw⟩ := hv.exists_cast kindName
  rw [hcast]
  exact keeps_push hw

/-- Every operator but `decode` keeps machines orderly. -/
theorem keeps_run {op : Operator} (hop : op ≠ .decode) :
    Keeps Interrupt.Tolerable (fun _ => True) op.run := by
  cases op with
  -- numbers and truth values have no letters in them
  | add | subtract | multiply | divide | remainder | power =>
    exact keeps_onNumbers fun _ _ => Value.written_number _
  | less => exact keeps_onNumbers fun _ _ => Value.written_truth _
  | conjoin | disjoin => exact keeps_onTruths _
  | equal | find => exact keeps_onTexts fun _ _ _ _ => Value.written_truth _
  | concat => exact keeps_onTexts fun _ _ ha hb => Value.written_text.mpr (ha.append hb)
  | split =>
    exact keeps_onTexts fun _ delimiter htext _ =>
      Value.written_ofTexts (Text.written_split htext delimiter)
  | round => exact keeps_popNumber.bind fun _ _ => keeps_push (Value.written_number _)
  | negate => exact keeps_popTruth.bind fun _ _ => keeps_push (Value.written_truth _)
  | repeatText => exact keeps_runRepeat
  | decode => exact absurd rfl hop
  | encode => exact keeps_runEncode
  | replace => exact keeps_runReplace
  | join => exact keeps_runJoin
  | get => exact keeps_runGet
  | set => exact keeps_runSet
  | delete => exact keeps_runDelete
  | insert => exact keeps_runInsert
  | append =>
    refine keeps_pop.bind fun v hv => keeps_popList.bind fun items hitems => ?_
    refine keeps_push (Value.written_list.mpr fun w hw => ?_)
    rcases List.mem_append.mp hw with hw | hw
    · exact hitems w hw
    · exact List.mem_singleton.mp hw ▸ hv
  | sort =>
    refine keeps_popList.bind fun items hitems => keeps_push ?_
    exact Value.written_ofTexts (Text.written_sort (written_toTexts hitems))
  | reverse =>
    refine keeps_popList.bind fun items hitems => keeps_push (Value.written_list.mpr fun v hv => ?_)
    exact hitems v (List.mem_reverse.mp hv)
  | range => exact keeps_runRange
  | length => exact keeps_pop.bind fun _ _ => keeps_push (Value.written_number _)
  | drop => exact keeps_pop.bind fun _ _ => keeps_pure trivial
  | kind =>
    exact keeps_pop.bind fun _ _ => keeps_push (Value.written_kind_name coversAscii_plain _)
  | cast => exact keeps_runCast
  | duplicate => exact keeps_pop.bind fun _ hv => (keeps_push hv).bind fun _ _ => keeps_push hv
  | swap =>
    refine keeps_pop.bind fun _ hb => keeps_pop.bind fun _ ha => ?_
    exact (keeps_push hb).bind fun _ _ => keeps_push ha

end Operator

/-! ### Effects -/

namespace Effect

variable {allowed : Interrupt → Prop}

theorem keeps_define {name : String} {v : Value} (hname : Written Plain name)
    (hv : v.Written Plain) : Keeps allowed (fun _ => True) (Routine.define name v) :=
  fun _ hm => ⟨trivial, hm.withStore (hm.written.store.define hname hv)⟩

theorem keeps_free (name : String) : Keeps allowed (fun _ => True) (Routine.free name) :=
  fun _ hm => ⟨trivial, hm.withStore (hm.written.store.free name)⟩

theorem keeps_dumpStore : Keeps allowed (fun _ => True) dumpStore :=
  fun _ hm => ⟨trivial, hm.record _⟩

/-- An answer is plain; that there is none is the host's fault. -/
theorem keeps_ask (message : String) : Keeps Interrupt.Tolerable (Written Plain) (ask message) := by
  intro m hm
  have hreplies : ∀ d ∈ m.host.replies.tail, d.Written Plain := fun d hd =>
    hm.written.replies d (List.mem_of_mem_tail hd)
  have hrest : Machine.Orderly { m with
      history := m.history.push (.prompted message)
      host := { m.host with replies := m.host.replies.tail } } :=
    ⟨⟨hm.written.stack, hm.written.store, hreplies, hm.written.clock⟩, hm.clock⟩
  rw [runOn_ask]
  cases hfirst : m.host.replies with
  | nil => exact ⟨rfl, hfirst ▸ hrest⟩
  | cons reply later =>
    have hreply : reply.Written Plain := hm.written.replies reply (hfirst ▸ List.mem_cons_self)
    exact ⟨hreply.plainText coversAscii_plain, hfirst ▸ hrest⟩

theorem keeps_readClock : Keeps allowed (Value.Written Plain) readClock := by
  intro m hm
  have htick := m.host.clock.readings_tick
  obtain ⟨v, hv⟩ := hm.clock _ m.host.clock.reading_mem
  have hwritten := hm.written.clock _ m.host.clock.reading_mem
  rw [runOn_readClock, hv]
  refine ⟨hwritten.toValue coversAscii_plain hv, ⟨?_, fun d hd => hm.clock d (htick hd)⟩⟩
  exact ⟨hm.written.stack, hm.written.store, hm.written.replies,
    fun d hd => hm.written.clock d (htick hd)⟩

/-- Every effect keeps machines orderly. -/
theorem keeps_run (eff : Effect) : Keeps Interrupt.Tolerable (fun _ => True) eff.run := by
  cases eff with
  | print => exact keeps_popText.bind fun _ _ => keeps_record _
  | input =>
    refine keeps_popText.bind fun message _ => (keeps_ask message).bind fun _ hreply => ?_
    exact keeps_push (Value.written_text.mpr hreply)
  | exit =>
    exact keeps_popNumber.bind fun _ _ => (keeps_record _).bind fun _ _ => keeps_throw trivial
  | depth => exact fun _ hm => ⟨trivial, hm.push (Value.written_number _)⟩
  | define =>
    refine keeps_popText.bind fun name hname => keeps_pop.bind fun v hv => ?_
    exact (keeps_define hname hv).bind fun _ _ => keeps_dumpStore
  | names =>
    exact fun _ hm => ⟨trivial, hm.push (Value.written_ofTexts hm.written.store.names)⟩
  | free =>
    exact keeps_popText.bind fun name _ => (keeps_free name).bind fun _ _ => keeps_dumpStore
  | now => exact keeps_readClock.bind fun _ hv => keeps_push hv
  | sleep =>
    apply keeps_popNumber.bind
    intro seconds _
    dsimp only
    split
    · exact keeps_refuse_bind nofun
    · exact keeps_record _

end Effect

end ReversePolish
