/-
ReversePolish/Proofs/Store.lean

The store as a map.  Binding a name changes what is found under this name and
under no other; the name keeps its place, or gets the last one.  Freeing a name
takes it out and leaves the others in their order.
-/
import ReversePolish.Store

namespace ReversePolish.Store

variable (s : Store) (name : String) (v : Value)

/-! ### Binding -/

theorem names_define :
    (s.define name v).names = if name ∈ s.names then s.names else s.names ++ [name] := by
  unfold define
  split
  · exact map_fst_rebind name v s.entries
  · simp [names]

/-- What is found among entries of which one name has got another value. -/
theorem lookup_map_rebind (entries : List (String × Value)) (other : String) :
    (entries.map (rebind name v)).lookup other =
      if other = name ∧ name ∈ entries.map Prod.fst then some v else entries.lookup other := by
  induction entries with
  | nil => simp
  | cons entry entries ih =>
    obtain ⟨first, w⟩ := entry
    by_cases hother : other = first
    · subst hother
      by_cases hname : other = name
      · subst hname
        simp [rebind]
      · simp [rebind, hname]
    · -- the first entry is passed over, rebound or not
      have hbeq : (other == first) = false := beq_eq_false_iff_ne.mpr hother
      have hpassed : (rebind name v (first, w) :: entries.map (rebind name v)).lookup other =
          (entries.map (rebind name v)).lookup other := by
        unfold rebind
        split <;> simp [List.lookup_cons, hbeq]
      have hmem : other = name → (name ∈ ((first, w) :: entries).map Prod.fst ↔
          name ∈ entries.map Prod.fst) := by
        rintro rfl
        rw [List.map_cons, List.mem_cons, or_iff_right hother]
      rw [List.map_cons, hpassed, ih, List.lookup_cons, hbeq]
      simp only [and_congr_right hmem]

theorem lookup?_define (other : String) :
    (s.define name v).lookup? other = if other = name then some v else s.lookup? other := by
  unfold define lookup?
  split
  · rename_i hbound
    have hmem : name ∈ s.entries.map Prod.fst := hbound
    simp only [lookup_map_rebind, hmem, and_true]
  · rename_i hfree
    rw [List.lookup_append]
    by_cases hother : other = name
    · -- nothing was found under the name before
      subst hother
      have hnone : s.entries.lookup other = none := by
        rw [List.lookup_eq_none_iff]
        intro entry hentry
        refine bne_iff_ne.mpr fun heq => hfree ?_
        exact List.mem_map.mpr ⟨entry, hentry, heq.symm⟩
      simp [hnone]
    · have hbeq : (other == name) = false := beq_eq_false_iff_ne.mpr hother
      simp [List.lookup_cons, hbeq, hother]

/-! ### Freeing -/

theorem names_free : (s.free name).names = s.names.filter (· != name) := by
  simp only [free, names, List.filter_map]
  rfl

/-- What is found among entries without those of one name. -/
theorem lookup_filter_ne (entries : List (String × Value)) (other : String) :
    (entries.filter (·.1 != name)).lookup other =
      if other = name then none else entries.lookup other := by
  induction entries with
  | nil => simp
  | cons entry entries ih =>
    obtain ⟨first, w⟩ := entry
    by_cases hfirst : first = name
    · subst hfirst
      rw [List.filter_cons_of_neg (by simp), ih]
      by_cases hother : other = first
      · simp [hother]
      · have hbeq : (other == first) = false := beq_eq_false_iff_ne.mpr hother
        simp [List.lookup_cons, hbeq, hother]
    · rw [List.filter_cons_of_pos (by simpa using hfirst), List.lookup_cons, List.lookup_cons, ih]
      by_cases hother : other = first
      · subst hother
        simp [hfirst]
      · have hbeq : (other == first) = false := beq_eq_false_iff_ne.mpr hother
        simp [hbeq]

theorem lookup?_free (other : String) :
    (s.free name).lookup? other = if other = name then none else s.lookup? other :=
  lookup_filter_ne name s.entries other

end ReversePolish.Store
