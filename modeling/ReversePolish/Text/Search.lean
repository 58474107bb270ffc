/-
ReversePolish/Text/Search.lean

Searching, cutting and ordering text.  Matches of a pattern are found from left to right
and do not overlap; an empty pattern matches at both ends and between every
two characters.

* `Text.contains`: the pattern occurs somewhere;
* `Text.split`: the pieces between the matches, at least one;
* `Text.replace`: every match exchanged for another text;
* `Text.sort`: texts in the order of their character codes.

Lengths are counted in characters.
-/

namespace ReversePolish.Text

/-! ### Characters -/

/-- The pattern stands at the start of the text or of one of its tails. -/
def occurs (pattern : List Char) : List Char → Bool
  | [] => pattern.isEmpty
  | c :: rest => pattern.isPrefixOf (c :: rest) || occurs pattern rest

/-- One pass that cuts a text at each match of a pattern that is not empty.
The first `skip` characters belong to a match already taken out. -/
def pieces (pattern : List Char) : (skip : Nat) → List Char → List (List Char)
  | _, [] => [[]]
  | skip + 1, _ :: rest => pieces pattern skip rest
  | 0, c :: rest =>
    if pattern.isPrefixOf (c :: rest) then [] :: pieces pattern (pattern.length - 1) rest
    else (pieces pattern 0 rest).modifyHead (c :: ·)

/-- One pass that writes `after` for each match of a pattern that is not
empty.  The first `skip` characters belong to a match already written. -/
def substitute (pattern after : List Char) : (skip : Nat) → List Char → List Char
  | _, [] => []
  | skip + 1, _ :: rest => substitute pattern after skip rest
  | 0, c :: rest =>
    if pattern.isPrefixOf (c :: rest) then
      after ++ substitute pattern after (pattern.length - 1) rest
    else c :: substitute pattern after 0 rest

/-- The order of texts, character by character and by their codes; a text comes
before its continuations. -/
def atMost : List Char → List Char → Bool
  | [], _ => true
  | _ :: _, [] => false
  | a :: as, b :: bs => if a = b then atMost as bs else a.toNat < b.toNat

/-! ### Strings -/

/-- The pattern occurs in the text. -/
def contains (text pattern : String) : Bool := occurs pattern.toList text.toList

/-- The pieces of a text between the matches of a delimiter.  The empty
delimiter gives every character, between two empty pieces. -/
def split (text delimiter : String) : List String :=
  if delimiter.toList = [] then "" :: text.toList.map String.singleton ++ [""]
  else (pieces delimiter.toList 0 text.toList).map String.ofList

/-- The pieces with a delimiter between them. -/
def join (delimiter : String) (pieces : List String) : String :=
  String.intercalate delimiter pieces

/-- Every match of `before` exchanged for `after`. -/
def replace (text before after : String) : String :=
  if before.toList = [] then
    String.ofList (after.toList ++ text.toList.flatMap fun c => c :: after.toList)
  else String.ofList (substitute before.toList after.toList 0 text.toList)

/-- Texts in increasing order. -/
def sort (texts : List String) : List String :=
  texts.mergeSort fun a b => atMost a.toList b.toList

/-- A text written `count` times.  However large the count, nothing times is
nothing. -/
def replicate (text : String) (count : Nat) : String :=
  if text.isEmpty then "" else String.join (List.replicate count text)

end ReversePolish.Text
