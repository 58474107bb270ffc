/-
ReversePolish/Token.lean

From source text to tokens.  Tab, newline, carriage return and the ideographic
space count as a plain space, and a space ends a token only at the outermost
level.  Three constructs keep the spaces inside them:

* parentheses, which nest and may close more than was opened;
* brackets, counted only while no parenthesis is open or overclosed;
* hash marks, each of which switches the inside of a comment on or off.

The marks stay in the token.  `Token.ofText` says what a token is on its own:
a literal, or a word whose meaning depends on the variables and commands.
-/
import ReversePolish.Number.Numeral

namespace ReversePolish

/-! ### Nesting -/

/-- Where a scan stands: the depths in parentheses and brackets, which a
closing mark too many makes negative, and whether a hash mark is open. -/
structure Nesting where
  parens : Int
  brackets : Int
  hash : Bool
  deriving DecidableEq

namespace Nesting

/-- The outermost level, where every scan starts. -/
def outermost : Nesting := ⟨0, 0, false⟩

/-- The nesting after one more character. -/
def step (level : Nesting) (c : Char) : Nesting :=
  if c = '(' then { level with parens := level.parens + 1 }
  else if c = ')' then { level with parens := level.parens - 1 }
  else if c = '#' then { level with hash := !level.hash }
  else if c = '[' ∧ level.parens = 0 then { level with brackets := level.brackets + 1 }
  else if c = ']' ∧ level.parens = 0 then { level with brackets := level.brackets - 1 }
  else level

end Nesting

/-! ### Tokens of a source -/

/-- A plain space for each of the characters that count as one. -/
def plainSpace (c : Char) : Char :=
  if c = '\t' ∨ c = '\n' ∨ c = '\r' ∨ c = '\u3000' then ' ' else c

/-- The tokens of the characters still to be scanned.  `buffer` holds the
characters of the token under way, last one first. -/
def scan (level : Nesting) (buffer : List Char) : List Char → List (List Char)
  | [] => if buffer.isEmpty then [] else [buffer.reverse]
  | c :: rest =>
    if c = ' ' ∧ level = .outermost then
      if buffer.isEmpty then scan level [] rest
      else buffer.reverse :: scan level [] rest
    else scan (level.step c) (c :: buffer) rest

/-- The tokens of a source text. -/
def tokenize (source : String) : List String :=
  (scan .outermost [] (source.toList.map plainSpace)).map String.ofList

/-! ### What a token is -/

inductive Token where
  /-- A number. -/
  | number (n : Number)
  /-- A misspelled number. -/
  | misspelled (spelling : String)
  /-- `true` or `false`. -/
  | truth (b : Bool)
  /-- A text literal, given by the text inside its parentheses. -/
  | text (inside : String)
  /-- A list literal, given by the source inside its brackets. -/
  | list (body : String)
  /-- A variable, a comment, a command, or else a text. -/
  | word (name : String)

namespace Token

/-- The characters between two given marks at the ends of a token. -/
def inside? (opening closing : Char) (token : String) : Option String :=
  match token.toList with
  | first :: second :: rest =>
    let tail := second :: rest
    if first = opening ∧ tail.getLast? = some closing then some (String.ofList tail.dropLast)
    else none
  | _ => none

/-- What a token is, the first of the alternatives that applies. -/
def ofText (token : String) : Token :=
  match Numeral.read token with
  | .number n => number n
  | .misspelled => misspelled token
  | .other =>
    if token = "true" then truth true
    else if token = "false" then truth false
    else match inside? '(' ')' token with
      | some inner => text inner
      | none => match inside? '[' ']' token with
        | some body => list body
        | none => word token

/-- A misspelled number and a word are the whole token. -/
theorem ofText_eq_misspelled {token spelling : String} (h : ofText token = .misspelled spelling) :
    spelling = token ∧ Numeral.read token = .misspelled := by
  unfold ofText at h
  split at h
  · cases h
  · cases h
    exact ⟨rfl, ‹_›⟩
  · repeat' split at h
    all_goals cases h

theorem ofText_eq_word {token name : String} (h : ofText token = .word name) : name = token := by
  unfold ofText at h
  split at h
  · cases h
  · cases h
  · repeat' split at h
    all_goals cases h
    rfl

end Token

end ReversePolish
