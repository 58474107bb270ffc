/-
ReversePolish/Store.lean

The variables of a run: one flat store from names to values, in the order in
which the names were first bound.  Binding a name again keeps its place;
freeing it and binding it once more moves it to the end.
-/
import ReversePolish.Fault
import ReversePolish.Value.Basic

namespace ReversePolish

/-- Names with their values, each name once. -/
structure Store where
  entries : List (String × Value)
  distinct : (entries.map Prod.fst).Nodup

namespace Store

def empty : Store := ⟨[], List.nodup_nil⟩

instance : Inhabited Store := ⟨empty⟩

/-- The bound names, in order. -/
def names (s : Store) : List String := s.entries.map Prod.fst

def size (s : Store) : Nat := s.entries.length

def contains (s : Store) (name : String) : Bool := s.names.contains name

/-- The value bound to a name. -/
def lookup? (s : Store) (name : String) : Option Value := s.entries.lookup name

/-- The value bound to a name, which has to be bound. -/
def lookup (s : Store) (name : String) : Except Fault Value :=
  match s.lookup? name with
  | some v => .ok v
  | none => .error (.unboundName name)

/-- An entry with the value exchanged, if it has the given name. -/
def rebind (name : String) (v : Value) (entry : String × Value) : String × Value :=
  if entry.1 = name then (entry.1, v) else entry

theorem map_fst_rebind (name : String) (v : Value) (entries : List (String × Value)) :
    (entries.map (rebind name v)).map Prod.fst = entries.map Prod.fst := by
  rw [List.map_map]
  apply List.map_congr_left
  intro entry _
  simp only [Function.comp_apply, rebind]
  split <;> rfl

/-- Bind a name: in its place if it is bound, else after all others. -/
def define (s : Store) (name : String) (v : Value) : Store :=
  if h : name ∈ s.names then
    ⟨s.entries.map (rebind name v), by rw [map_fst_rebind]; exact s.distinct⟩
  else
    ⟨s.entries ++ [(name, v)], by
      rw [List.map_append, List.map_cons, List.map_nil, List.nodup_append]
      refine ⟨s.distinct, by simp, ?_⟩
      intro a ha b hb
      obtain rfl := List.mem_singleton.mp hb
      rintro rfl
      exact h ha⟩

/-- Unbind a name; a name that is not bound is ignored. -/
def free (s : Store) (name : String) : Store :=
  ⟨s.entries.filter (·.1 != name), (List.filter_sublist.map Prod.fst).nodup s.distinct⟩

/-- The store after binding names in order. -/
def ofList (bindings : List (String × Value)) : Store :=
  bindings.foldl (fun s (name, v) => s.define name v) empty

/-! ### Display -/

/-- The bindings between braces. -/
def bindingsText (s : Store) : String :=
  let texts := s.entries.map fun (name, v) => "'" ++ name ++ "': " ++ v.display
  "\x7b " ++ String.intercalate ", " texts ++ " \x7d"

/-- The store as it stands in the log. -/
def display (s : Store) : String := "Memory " ++ s.bindingsText

/-- The store as the host dumps it. -/
def dump (s : Store) : String := "<Memory " ++ s.bindingsText ++ ">"

end Store

end ReversePolish
