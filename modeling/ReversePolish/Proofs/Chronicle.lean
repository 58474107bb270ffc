/-
ReversePolish/Proofs/Chronicle.lean

The store told by its history.  A list of operations, each of which binds or
frees a name, says everything about the store that it leaves, without a look
at the store itself:

* a name is bound iff the last operation on it has bound it, and then to the
  value of this operation (`lastOn`);
* the bound names stand in the order of their births, where a name is born
  when it is bound for the first time after it has been freed for the last
  time (`Born`).

Main result: the store after any operations from the empty one is as they
tell (`chronicled_replay`).  The induction is on the last operation.
-/
import Mathlib.Data.List.Basic
import Mathlib.Data.List.Induction
import ReversePolish.Proofs.Store

namespace ReversePolish.Store

/-! ### Operations -/

/-- A change of the store. -/
inductive Operation where
  | define (name : String) (v : Value)
  | free (name : String)

/-- The name that an operation is about. -/
def Operation.name : Operation → String
  | define name _ => name
  | free name => name

/-- The value that an operation leaves under its name. -/
def Operation.value? : Operation → Option Value
  | define _ v => some v
  | free _ => none

def apply (s : Store) : Operation → Store
  | .define name v => s.define name v
  | .free name => s.free name

/-- The store after some operations, the first one on an empty store. -/
def replay (ops : List Operation) : Store := ops.foldl apply empty

variable {ops : List Operation} {op : Operation} {name : String} {t : Nat}

theorem replay_concat (ops : List Operation) (op : Operation) :
    replay (ops ++ [op]) = (replay ops).apply op := by
  simp [replay]

theorem mem_names_define {s : Store} {other : String} {v : Value} :
    name ∈ (s.define other v).names ↔ name ∈ s.names ∨ name = other := by
  rw [names_define]
  split
  · rename_i hbound
    refine ⟨Or.inl, ?_⟩
    rintro (hmem | rfl)
    · exact hmem
    · exact hbound
  · rw [List.mem_append, List.mem_singleton]

theorem mem_names_free {s : Store} {other : String} :
    name ∈ (s.free other).names ↔ name ∈ s.names ∧ name ≠ other := by
  rw [names_free, List.mem_filter, bne_iff_ne]

theorem lookup?_apply (s : Store) (op : Operation) (other : String) :
    (s.apply op).lookup? other = if other = op.name then op.value? else s.lookup? other := by
  cases op with
  | define name v => exact s.lookup?_define name v other
  | free name => exact s.lookup?_free name other

/-! ### Names and values -/

theorem lookup?_of_mem {s : Store} {v : Value} (h : (name, v) ∈ s.entries) :
    s.lookup? name = some v := by
  obtain ⟨entries, hdistinct⟩ := s
  show entries.lookup name = some v
  induction entries with
  | nil => cases h
  | cons entry entries ih =>
    obtain ⟨first, w⟩ := entry
    obtain ⟨hfirst, hrest⟩ := List.nodup_cons.mp hdistinct
    rcases List.mem_cons.mp h with heq | hmem
    · obtain ⟨rfl, rfl⟩ := Prod.mk.inj heq
      simp
    · -- the name occurs further on, so it is not the first one
      have hne : name ≠ first := by
        rintro rfl
        exact hfirst (List.mem_map.mpr ⟨_, hmem, rfl⟩)
      rw [List.lookup_cons, beq_eq_false_iff_ne.mpr hne]
      exact ih hrest hmem

theorem mem_names_iff_lookup? (s : Store) (name : String) :
    name ∈ s.names ↔ ∃ v, s.lookup? name = some v := by
  constructor
  · intro hmem
    obtain ⟨⟨_, v⟩, hentry, rfl⟩ := List.mem_map.mp hmem
    exact ⟨v, lookup?_of_mem hentry⟩
  · rintro ⟨v, hv⟩
    obtain ⟨before, after, hentries, -⟩ := List.lookup_eq_some_iff.mp hv
    rw [names, hentries]
    simp

/-! ### The last operation on a name -/

/-- The last of the operations on a name. -/
def lastOn (ops : List Operation) (name : String) : Option Operation :=
  (ops.filter fun op => op.name = name).getLast?

theorem lastOn_concat (ops : List Operation) (op : Operation) (name : String) :
    lastOn (ops ++ [op]) name = if name = op.name then some op else lastOn ops name := by
  unfold lastOn
  rw [List.filter_append]
  by_cases hname : op.name = name
  · simp [hname]
  · simp [hname, Ne.symm hname]

theorem name_of_lastOn (h : lastOn ops name = some op) : op.name = name := by
  have hmem : op ∈ ops.filter fun op => op.name = name := List.mem_of_getLast? h
  simpa using (List.mem_filter.mp hmem).2

/-- What is found under a name is what the last operation on it has left. -/
theorem lookup?_replay (ops : List Operation) (name : String) :
    (replay ops).lookup? name = (lastOn ops name).bind Operation.value? := by
  induction ops using List.reverseRecOn with
  | nil => rfl
  | append_singleton ops op ih =>
    rw [replay_concat, lookup?_apply, lastOn_concat, ih]
    split <;> rfl

/-- A name is bound iff the last operation on it has bound it. -/
theorem mem_names_replay_iff_lastOn (ops : List Operation) (name : String) :
    name ∈ (replay ops).names ↔ ∃ v, lastOn ops name = some (.define name v) := by
  rw [mem_names_iff_lookup?]
  refine exists_congr fun v => ?_
  rw [lookup?_replay, Option.bind_eq_some_iff]
  constructor
  · rintro ⟨op, hlast, hvalue⟩
    cases op with
    | define other w =>
      obtain rfl := name_of_lastOn hlast
      obtain rfl := Option.some.inj hvalue
      exact hlast
    | free other => cases hvalue
  · exact fun hlast => ⟨_, hlast, rfl⟩

/-! ### The birth of a name -/

/-- The name is bound at the time `t`, it has not been freed since, and
whenever it had been bound before, it was freed before `t`. -/
structure Born (ops : List Operation) (name : String) (t : Nat) : Prop where
  defined : ∃ v, ops[t]? = some (.define name v)
  kept : ∀ u, t < u → ops[u]? ≠ some (.free name)
  first : ∀ s v, s < t → ops[s]? = some (.define name v) →
    ∃ u, s < u ∧ u < t ∧ ops[u]? = some (.free name)

/-- Whenever the name has been bound, it has been freed afterwards. -/
def Lapsed (ops : List Operation) (name : String) : Prop :=
  ∀ (t : Nat) (v : Value), ops[t]? = some (.define name v) →
    ∃ u : Nat, t < u ∧ ops[u]? = some (.free name)

/-- The first name was born before the second. -/
def Earlier (ops : List Operation) (a b : String) : Prop :=
  ∃ t u, Born ops a t ∧ Born ops b u ∧ t < u

/-- A name is born once. -/
theorem Born.unique {u : Nat} (ht : Born ops name t) (hu : Born ops name u) : t = u := by
  -- of two births, the name was freed before the later one and so after the other
  have hle : ∀ {t u}, Born ops name t → Born ops name u → ¬t < u := by
    intro t u ht hu hlt
    obtain ⟨v, hv⟩ := ht.defined
    obtain ⟨w, htw, -, hfree⟩ := hu.first t v hlt hv
    exact ht.kept w htw hfree
  exact Nat.le_antisymm (Nat.not_lt.mp (hle hu ht)) (Nat.not_lt.mp (hle ht hu))

theorem Born.lt_length (h : Born ops name t) : t < ops.length := by
  obtain ⟨v, hv⟩ := h.defined
  exact (List.getElem?_eq_some_iff.mp hv).1

/-- Operations before the last one, and the last one. -/
theorem getElem?_concat_eq_some {entry : Operation} :
    (ops ++ [op])[t]? = some entry ↔ ops[t]? = some entry ∨ t = ops.length ∧ op = entry := by
  rcases Nat.lt_trichotomy t ops.length with hlt | rfl | hgt
  · rw [List.getElem?_append_left hlt, or_iff_left fun h => Nat.ne_of_lt hlt h.1]
  · simp
  · have hlength : (ops ++ [op]).length ≤ t := by
      rw [List.length_append]
      exact hgt
    rw [List.getElem?_eq_none hlength, List.getElem?_eq_none (Nat.le_of_lt hgt)]
    simp [Nat.ne_of_gt hgt]

theorem getElem?_length_lt {entry : Operation} (h : ops[t]? = some entry) : t < ops.length :=
  (List.getElem?_eq_some_iff.mp h).1

/-- A birth stands as long as the name is not freed. -/
theorem Born.concat (h : Born ops name t) (hop : op ≠ .free name) : Born (ops ++ [op]) name t where
  defined := by
    obtain ⟨v, hv⟩ := h.defined
    exact ⟨v, getElem?_concat_eq_some.mpr (Or.inl hv)⟩
  kept u hlt hfree := by
    rcases getElem?_concat_eq_some.mp hfree with hfree | ⟨-, rfl⟩
    · exact h.kept u hlt hfree
    · exact hop rfl
  first s v hlt hdefine := by
    rcases getElem?_concat_eq_some.mp hdefine with hdefine | ⟨rfl, -⟩
    · obtain ⟨u, hsu, hut, hfree⟩ := h.first s v hlt hdefine
      exact ⟨u, hsu, hut, getElem?_concat_eq_some.mpr (Or.inl hfree)⟩
    · exact absurd h.lt_length (Nat.lt_asymm hlt)

/-- A name that is bound when all its bindings have ended is born now. -/
theorem Lapsed.born (h : Lapsed ops name) (v : Value) :
    Born (ops ++ [.define name v]) name ops.length where
  defined := ⟨v, getElem?_concat_eq_some.mpr (Or.inr ⟨rfl, rfl⟩)⟩
  kept u hlt hfree := by
    rcases getElem?_concat_eq_some.mp hfree with hfree | ⟨-, hdefine⟩
    · exact absurd (getElem?_length_lt hfree) (Nat.lt_asymm hlt)
    · cases hdefine
  first s w hlt hdefine := by
    rcases getElem?_concat_eq_some.mp hdefine with hdefine | ⟨rfl, -⟩
    · obtain ⟨u, hsu, hfree⟩ := h s w hdefine
      exact ⟨u, hsu, getElem?_length_lt hfree, getElem?_concat_eq_some.mpr (Or.inl hfree)⟩
    · exact absurd hlt (Nat.lt_irrefl _)

theorem Lapsed.concat (h : Lapsed ops name) (hop : ∀ v, op ≠ .define name v) :
    Lapsed (ops ++ [op]) name := by
  intro t v hdefine
  rcases getElem?_concat_eq_some.mp hdefine with hdefine | ⟨-, hlast⟩
  · obtain ⟨u, hlt, hfree⟩ := h t v hdefine
    exact ⟨u, hlt, getElem?_concat_eq_some.mpr (Or.inl hfree)⟩
  · exact absurd hlast (hop v)

theorem lapsed_free (ops : List Operation) (name : String) : Lapsed (ops ++ [.free name]) name := by
  intro t v hdefine
  rcases getElem?_concat_eq_some.mp hdefine with hdefine | ⟨-, hlast⟩
  · exact ⟨ops.length, getElem?_length_lt hdefine, getElem?_concat_eq_some.mpr (Or.inr ⟨rfl, rfl⟩)⟩
  · cases hlast

/-- The bound names are those that are born, and the bindings of the others
have ended. -/
theorem born_or_lapsed (ops : List Operation) (name : String) :
    (name ∈ (replay ops).names ∧ ∃ t, Born ops name t) ∨
      (name ∉ (replay ops).names ∧ Lapsed ops name) := by
  induction ops using List.reverseRecOn with
  | nil => exact Or.inr ⟨List.not_mem_nil, fun t v hdefine => by simp at hdefine⟩
  | append_singleton ops op ih =>
    rw [replay_concat]
    cases op with
    | define other v =>
      rcases ih with ⟨hmem, t, hborn⟩ | ⟨hnotMem, hlapsed⟩
      · exact Or.inl ⟨mem_names_define.mpr (Or.inl hmem), t, hborn.concat nofun⟩
      · by_cases hname : name = other
        · subst hname
          exact Or.inl ⟨mem_names_define.mpr (Or.inr rfl), ops.length, hlapsed.born v⟩
        · refine Or.inr ⟨fun hmem => ?_, hlapsed.concat fun w heq => ?_⟩
          · exact (mem_names_define.mp hmem).elim hnotMem hname
          · exact hname (Operation.define.inj heq).1.symm
    | free other =>
      by_cases hname : name = other
      · subst hname
        exact Or.inr ⟨fun hmem => (mem_names_free.mp hmem).2 rfl, lapsed_free ops name⟩
      · rcases ih with ⟨hmem, t, hborn⟩ | ⟨hnotMem, hlapsed⟩
        · refine Or.inl ⟨mem_names_free.mpr ⟨hmem, hname⟩, t, hborn.concat fun heq => ?_⟩
          exact hname (Operation.free.inj heq).symm
        · exact Or.inr ⟨fun hmem => hnotMem (mem_names_free.mp hmem).1, hlapsed.concat nofun⟩

theorem Born.not_lapsed (h : Born ops name t) : ¬Lapsed ops name := by
  intro hlapsed
  obtain ⟨v, hdefine⟩ := h.defined
  obtain ⟨u, hlt, hfree⟩ := hlapsed t v hdefine
  exact h.kept u hlt hfree

theorem mem_names_replay_iff_born (ops : List Operation) (name : String) :
    name ∈ (replay ops).names ↔ ∃ t, Born ops name t := by
  rcases born_or_lapsed ops name with ⟨hmem, hborn⟩ | ⟨hnotMem, hlapsed⟩
  · exact iff_of_true hmem hborn
  · exact iff_of_false hnotMem fun ⟨_, hborn⟩ => hborn.not_lapsed hlapsed

theorem Earlier.concat {a b : String} (h : Earlier ops a b) (ha : op ≠ .free a)
    (hb : op ≠ .free b) : Earlier (ops ++ [op]) a b := by
  obtain ⟨t, u, ht, hu, hlt⟩ := h
  exact ⟨t, u, ht.concat ha, hu.concat hb, hlt⟩

/-- The names stand in the order of their births. -/
theorem pairwise_names_replay (ops : List Operation) :
    (replay ops).names.Pairwise (Earlier ops) := by
  induction ops using List.reverseRecOn with
  | nil => exact List.Pairwise.nil
  | append_singleton ops op ih =>
    rw [replay_concat]
    cases op with
    | define name v =>
      have hkept : (replay ops).names.Pairwise (Earlier (ops ++ [.define name v])) :=
        ih.imp fun hearlier => hearlier.concat nofun nofun
      show ((replay ops).define name v).names.Pairwise _
      rw [names_define]
      split
      · exact hkept
      · -- the new name is born after all others
        rename_i hfree
        have hborn := ((born_or_lapsed ops name).resolve_left fun h => hfree h.1).2.born v
        refine List.pairwise_append.mpr ⟨hkept, List.pairwise_singleton .., ?_⟩
        intro a ha b hb
        obtain rfl := List.mem_singleton.mp hb
        obtain ⟨t, ht⟩ := (mem_names_replay_iff_born ops a).mp ha
        exact ⟨t, ops.length, ht.concat nofun, hborn, ht.lt_length⟩
    | free name =>
      show ((replay ops).free name).names.Pairwise _
      rw [names_free]
      refine (ih.filter _).imp_of_mem fun {a b} ha hb hearlier => ?_
      -- those that stay are not the one that is freed
      have hne : ∀ {c}, c ∈ (replay ops).names.filter (· != name) →
          Operation.free name ≠ .free c := by
        intro c hc heq
        obtain rfl := Operation.free.inj heq
        simp at hc
      exact hearlier.concat (hne ha) (hne hb)

/-! ### The whole store -/

/-- The text of a binding. -/
def bindingText (name : String) (v : Value) : String := "'" ++ name ++ "': " ++ v.display

/-- The display lists the names in their order, each with its value. -/
theorem display_eq (s : Store) :
    s.display = "Memory \x7b " ++
      String.intercalate ", "
        (s.names.filterMap fun name => (s.lookup? name).map (bindingText name)) ++
      " \x7d" := by
  have hbound : ∀ entry ∈ s.entries, (s.lookup? entry.1).map (bindingText entry.1) =
      some (bindingText entry.1 entry.2) := by
    intro entry hentry
    rw [lookup?_of_mem hentry, Option.map_some]
  have htexts : (s.names.filterMap fun name => (s.lookup? name).map (bindingText name)) =
      s.entries.map fun entry => bindingText entry.1 entry.2 := by
    rw [names, List.filterMap_map, ← List.filterMap_eq_map]
    exact List.filterMap_congr hbound
  rw [htexts, display, bindingsText, String.append_assoc, String.append_assoc]
  rfl

/-- The store is as the operations tell. -/
structure Chronicled (ops : List Operation) (s : Store) : Prop where
  /-- No name occurs twice. -/
  distinct : s.names.Nodup
  /-- A name is bound iff the last operation on it has bound it. -/
  bound : ∀ name, name ∈ s.names ↔ ∃ v, lastOn ops name = some (.define name v)
  /-- It is bound to the value of this operation. -/
  found : ∀ name, s.lookup? name = (lastOn ops name).bind Operation.value?
  /-- It is a fault to look up a name that is not bound. -/
  lookup : ∀ name, s.lookup name =
    ((lastOn ops name).bind Operation.value?).elim (.error (.unboundName name)) .ok
  /-- Each bound name was born once. -/
  born : ∀ name ∈ s.names, ∃! t, Born ops name t
  /-- The names stand in the order of their births. -/
  ordered : s.names.Pairwise (Earlier ops)
  /-- They are shown in this order, each with its value. -/
  shown : s.display = "Memory \x7b " ++ String.intercalate ", " (s.names.filterMap fun name =>
    ((lastOn ops name).bind Operation.value?).map (bindingText name)) ++ " \x7d"

theorem chronicled_replay (ops : List Operation) : Chronicled ops (replay ops) where
  distinct := (replay ops).distinct
  bound := mem_names_replay_iff_lastOn ops
  found := lookup?_replay ops
  lookup name := by
    rw [lookup, lookup?_replay]
    cases (lastOn ops name).bind Operation.value? <;> rfl
  born name hmem := by
    obtain ⟨t, ht⟩ := (mem_names_replay_iff_born ops name).mp hmem
    exact ⟨t, ht, fun u hu => hu.unique ht⟩
  ordered := pairwise_names_replay ops
  shown := by
    rw [display_eq]
    simp only [lookup?_replay]

end ReversePolish.Store
