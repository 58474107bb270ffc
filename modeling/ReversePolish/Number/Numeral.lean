/-
ReversePolish/Number/Numeral.lean

Numerals: the texts that spell a number.  A numeral is an optional sign
followed by

* a decimal: digits with an optional point among or after them, or a point and
  digits, each with an optional exponent `e`, sign and digits; or
* one of the words `inf`, `infinity` and `nan` in any mix of cases.

Nothing else may stand before, between or after.  Two more letters are taken
for an `i` when a word is recognised, the dotted capital `İ` and the dotless
small `ı`, but a word spelled with them has no value: such a text is
*misspelled*, neither a number nor an ordinary text.
-/
import ReversePolish.Number.Decimal

namespace ReversePolish

/-- What a numeral says. -/
inductive Numeral where
  | decimal (negative : Bool) (value : Decimal)
  | infinity (negative : Bool)
  | nan
  deriving DecidableEq

namespace Numeral

/-- The number a numeral stands for: decimals are correctly rounded. -/
def toNumber : Numeral → Number
  | decimal s d => .signed s d.toMagnitude
  | infinity s => .signed s .infinity
  | nan => .nan

/-! ### Parts of a numeral -/

/-- The value of a run of digits. -/
def digitsValue (digits : List Char) : Nat :=
  digits.foldl (fun value c => 10 * value + (c.toNat - '0'.toNat)) 0

/-- An optional sign, and what follows it. -/
def splitSign : List Char → Bool × List Char
  | '+' :: rest => (false, rest)
  | '-' :: rest => (true, rest)
  | rest => (false, rest)

/-- The exponent part, which has to take all of the text; no text at all is
the exponent zero. -/
def exponent? : List Char → Option Int
  | [] => some 0
  | mark :: rest =>
    let (negative, digits) := splitSign rest
    if (mark == 'e' || mark == 'E') && !digits.isEmpty && digits.all Char.isDigit then
      some (if negative then -(digitsValue digits : Int) else digitsValue digits)
    else none

/-- The point and the digits after it, if there is a point; and what
follows. -/
def splitFraction : List Char → Option (List Char) × List Char
  | '.' :: rest => (some (rest.takeWhile Char.isDigit), rest.dropWhile Char.isDigit)
  | rest => (none, rest)

/-- A decimal without its sign. -/
def decimal? (text : List Char) : Option Decimal :=
  let whole := text.takeWhile Char.isDigit
  let (point, rest) := splitFraction (text.dropWhile Char.isDigit)
  let fraction := point.getD []
  if whole.isEmpty && fraction.isEmpty then none
  else (exponent? rest).map fun e => ⟨digitsValue (whole ++ fraction), e - fraction.length⟩

/-- A signed word or decimal, the whole of the text. -/
def parse? (text : List Char) : Option Numeral :=
  let (negative, body) := splitSign text
  let word := String.ofList (body.map Char.toLower)
  if word = "inf" ∨ word = "infinity" then some (infinity negative)
  else if word = "nan" then some nan
  else (decimal? body).map (decimal negative)

/-! ### Reading a text -/

/-- What a text is as a number. -/
inductive Reading where
  /-- It spells this number. -/
  | number (value : Number)
  /-- It would spell a number if `İ` and `ı` were an `i`. -/
  | misspelled
  /-- It is no numeral. -/
  | other
  deriving DecidableEq

/-- An `i` for the two letters that are taken for one. -/
def plainI (c : Char) : Char := if c = 'İ' ∨ c = 'ı' then 'i' else c

/-- Read a text as a number. -/
def read (text : String) : Reading :=
  match parse? text.toList with
  | some numeral => .number numeral.toNumber
  | none =>
    if (parse? (text.toList.map plainI)).isSome then .misspelled else .other

end Numeral

end ReversePolish
