/-
ReversePolish/Proofs/Resuming.lean

The scan as a reader that takes one character at a time, can stop between any
two of them, and goes on later.  What it has at such a point is the tokens it
has yielded, the token under way and the nesting.

The nesting need not be kept: to read the token under way once more, from the
outermost level, yields nothing and brings the reader back to where it was
(`Reader.Consistent.rescan`).  So the text of the token under way is all that
the rest of the source has to be put after (`tokenize_resume`).

The invariant is `Reader.Consistent`: the token under way is an unbroken
stretch at the end of what has been read, and leads from the outermost level
to the present one.
-/
import ReversePolish.Proofs.Grammar

namespace ReversePolish

open Nesting

/-- A scan that has stopped between two characters. -/
structure Reader where
  /-- The tokens yielded so far. -/
  yielded : List (List Char)
  level : Nesting
  /-- The token under way, last character first. -/
  buffer : List Char

namespace Reader

/-! ### Reading -/

/-- A reader at the start of a source. -/
def start : Reader := ⟨[], outermost, []⟩

/-- Take one more character: a space at the outermost level ends the token
under way, if there is one; anything else goes into it. -/
def read (r : Reader) (c : Char) : Reader :=
  if c = ' ' ∧ r.level = outermost then
    if r.buffer.isEmpty then r
    else { r with yielded := r.yielded ++ [r.buffer.reverse], buffer := [] }
  else { r with level := r.level.step c, buffer := c :: r.buffer }

def readAll (r : Reader) (cs : List Char) : Reader := cs.foldl read r

/-- The token under way, in the order of its characters. -/
def pending (r : Reader) : List Char := r.buffer.reverse

/-- All tokens, if the source ends here. -/
def finish (r : Reader) : List (List Char) :=
  if r.buffer.isEmpty then r.yielded else r.yielded ++ [r.pending]

/-- The same reader, after some more tokens that were yielded before. -/
def behind (tokens : List (List Char)) (r : Reader) : Reader :=
  { r with yielded := tokens ++ r.yielded }

variable {r : Reader} {cs : List Char}

theorem readAll_append (r : Reader) (cs ds : List Char) :
    r.readAll (cs ++ ds) = (r.readAll cs).readAll ds :=
  List.foldl_append

/-- The scan is what a reader makes of the rest of the source. -/
theorem yielded_append_scan (r : Reader) (cs : List Char) :
    r.yielded ++ scan r.level r.buffer cs = (r.readAll cs).finish := by
  induction cs generalizing r with
  | nil =>
    rw [readAll, List.foldl_nil, finish, scan, pending]
    split
    · rw [List.append_nil]
    · rfl
  | cons c cs ih =>
    rw [readAll, List.foldl_cons, ← readAll, ← ih, scan, read]
    split
    · split
      · rename_i hbuffer
        rw [List.isEmpty_iff.mp hbuffer]
      · rw [List.append_assoc]
        rfl
    · rfl

theorem scan_eq_finish (cs : List Char) : scan outermost [] cs = (start.readAll cs).finish :=
  yielded_append_scan start cs

/-- The tokens yielded so far play no part in the reading. -/
theorem read_behind (tokens : List (List Char)) (r : Reader) (c : Char) :
    (r.behind tokens).read c = (r.read c).behind tokens := by
  unfold read behind
  dsimp only
  split
  · split
    · rfl
    · rw [List.append_assoc]
  · rfl

theorem readAll_behind (tokens : List (List Char)) (r : Reader) (cs : List Char) :
    (r.behind tokens).readAll cs = (r.readAll cs).behind tokens := by
  induction cs generalizing r with
  | nil => rfl
  | cons c cs ih =>
    have hstep : (r.behind tokens).readAll (c :: cs) = ((r.read c).behind tokens).readAll cs := by
      rw [← read_behind]
      rfl
    rw [hstep, ih]
    rfl

theorem finish_behind (tokens : List (List Char)) (r : Reader) :
    (r.behind tokens).finish = tokens ++ r.finish := by
  unfold finish behind
  dsimp only
  split
  · rfl
  · rw [List.append_assoc]
    rfl

/-! ### The token under way -/

/-- The state of a reader that has read the given characters. -/
structure Consistent (r : Reader) (cs : List Char) : Prop where
  suffix : r.pending <:+ cs
  unbroken : outermost.Unbroken r.pending
  level : outermost.after r.pending = r.level

theorem consistent_start : start.Consistent [] := ⟨List.suffix_rfl, trivial, rfl⟩

/-- One more character. -/
theorem Consistent.read (h : r.Consistent cs) (c : Char) : (r.read c).Consistent (cs ++ [c]) := by
  unfold Reader.read
  split
  · rename_i hspace
    -- whether or not a token ends here, none is under way after it
    have hnone : ∀ yielded, Consistent ⟨yielded, r.level, []⟩ (cs ++ [c]) := fun yielded =>
      ⟨List.nil_suffix, trivial, hspace.2.symm⟩
    split
    · rename_i hbuffer
      have hr : r = ⟨r.yielded, r.level, []⟩ := by rw [← List.isEmpty_iff.mp hbuffer]
      rw [hr]
      exact hnone r.yielded
    · exact hnone _
  · rename_i hinside
    have hpending : pending { r with level := r.level.step c, buffer := c :: r.buffer } =
        r.pending ++ [c] := List.reverse_cons
    refine ⟨?_, ?_, ?_⟩
    · rw [hpending]
      exact (List.suffix_append_inj_of_length_eq rfl).mpr ⟨h.suffix, rfl⟩
    · rw [hpending, unbroken_append, h.level]
      exact ⟨h.unbroken, hinside, trivial⟩
    · rw [hpending, after_append, h.level]
      rfl

/-- A whole stretch. -/
theorem Consistent.readAll (h : r.Consistent cs) (ds : List Char) :
    (r.readAll ds).Consistent (cs ++ ds) := by
  induction ds generalizing r cs with
  | nil => rwa [List.append_nil]
  | cons d ds ih =>
    have hnext := ih (h.read d)
    rwa [List.append_assoc] at hnext

theorem consistent_readAll (cs : List Char) : (start.readAll cs).Consistent cs :=
  consistent_start.readAll cs

/-- An unbroken stretch goes into the buffer. -/
theorem readAll_of_unbroken (h : r.level.Unbroken cs) :
    r.readAll cs = { r with level := r.level.after cs, buffer := cs.reverse ++ r.buffer } := by
  induction cs generalizing r with
  | nil => rfl
  | cons c cs ih =>
    obtain ⟨hc, hcs⟩ := unbroken_cons.mp h
    have hread : r.read c = { r with level := r.level.step c, buffer := c :: r.buffer } :=
      if_neg hc
    have hstep : r.readAll (c :: cs) = (r.read c).readAll cs := rfl
    rw [hstep, hread, ih hcs, after_cons, List.reverse_cons, List.append_assoc]
    rfl

/-- **The buffer carries the state.**  To read the token under way again yields
nothing and leads back to the same state. -/
theorem Consistent.rescan (h : r.Consistent cs) :
    start.readAll r.pending = { r with yielded := [] } := by
  rw [readAll_of_unbroken h.unbroken]
  have hlevel : start.level.after r.pending = r.level := h.level
  rw [hlevel, pending, List.reverse_reverse, start, List.append_nil]

/-- What follows may be read after the token under way alone. -/
theorem Consistent.readAll_eq (h : r.Consistent cs) (ds : List Char) :
    r.readAll ds = (start.readAll (r.pending ++ ds)).behind r.yielded := by
  rw [readAll_append, h.rescan, ← readAll_behind]
  congr 1
  rw [behind, List.append_nil]

/-! ### Sources -/

/-- The reader after a source. -/
def ofSource (source : String) : Reader := start.readAll (source.toList.map plainSpace)

end Reader

/-- The tokens that are yielded while a source is read. -/
def yieldedIn (source : String) : List String := (Reader.ofSource source).yielded.map String.ofList

/-- The text of the token that is under way at the end of a source. -/
def pendingAfter (source : String) : String := String.ofList (Reader.ofSource source).pending

theorem tokenize_eq_finish (source : String) :
    tokenize source = (Reader.ofSource source).finish.map String.ofList := by
  rw [tokenize, Reader.scan_eq_finish]
  rfl

/-- The token under way is in plain spaces already. -/
theorem map_plainSpace_pendingAfter (source : String) :
    (pendingAfter source).toList.map plainSpace = (Reader.ofSource source).pending := by
  rw [pendingAfter, String.toList_ofList]
  refine map_plainSpace_of_plain fun c hc => ?_
  have hmem : c ∈ source.toList.map plainSpace := (Reader.consistent_readAll _).suffix.subset hc
  obtain ⟨d, -, rfl⟩ := List.mem_map.mp hmem
  exact plainSpace_plainSpace d

theorem ofSource_append (p q : String) :
    Reader.ofSource (p ++ q) = (Reader.ofSource (pendingAfter p ++ q)).behind (Reader.ofSource p).yielded := by
  have hwhole : Reader.ofSource (p ++ q) = (Reader.ofSource p).readAll (q.toList.map plainSpace) := by
    rw [Reader.ofSource, String.toList_append, List.map_append, Reader.readAll_append]
    rfl
  have hrest : Reader.ofSource (pendingAfter p ++ q) =
      Reader.start.readAll ((Reader.ofSource p).pending ++ q.toList.map plainSpace) := by
    rw [Reader.ofSource, String.toList_append, List.map_append, map_plainSpace_pendingAfter]
  have hread : (Reader.ofSource p).Consistent (p.toList.map plainSpace) := Reader.consistent_readAll _
  rw [hwhole, hrest, hread.readAll_eq]

/-- **Tokenizing can be interrupted anywhere.**  The tokens yielded up to some
point stay what they are whatever follows; what follows has only to be put
after the token under way; and that token, read from the start, restores the
whole state of the reader. -/
theorem tokenize_resume (p q : String) :
    tokenize (p ++ q) = yieldedIn p ++ tokenize (pendingAfter p ++ q) ∧
    tokenize p = yieldedIn p ++ (if pendingAfter p = "" then [] else [pendingAfter p]) ∧
    yieldedIn (p ++ q) = yieldedIn p ++ yieldedIn (pendingAfter p ++ q) ∧
    Reader.ofSource (pendingAfter p) = { Reader.ofSource p with yielded := [] } := by
  refine ⟨?_, ?_, ?_, ?_⟩
  · rw [tokenize_eq_finish, ofSource_append, Reader.finish_behind, List.map_append, tokenize_eq_finish]
    rfl
  · have hempty : pendingAfter p = "" ↔ (Reader.ofSource p).buffer.isEmpty = true := by
      rw [pendingAfter, String.ofList_eq_empty_iff, Reader.pending, List.reverse_eq_nil_iff,
        List.isEmpty_iff]
    rw [tokenize_eq_finish, Reader.finish]
    simp only [hempty]
    split
    · exact (List.append_nil _).symm
    · rw [List.map_append]
      rfl
  · rw [yieldedIn, ofSource_append, Reader.behind, List.map_append]
    rfl
  · rw [Reader.ofSource, map_plainSpace_pendingAfter]
    exact (Reader.consistent_readAll _).rescan

end ReversePolish
