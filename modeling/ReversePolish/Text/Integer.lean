/-
ReversePolish/Text/Integer.lean

Integers as a user writes them: white space around, an optional sign, and
decimal digits of any script, single underscores allowed between two digits.
A text of more than 4300 digits is refused.
-/
import ReversePolish.Text.Blank

namespace ReversePolish.Text

/-- The codes of the decimal zeros of all scripts in Unicode 14; the digits
one to nine follow each of them. -/
def decimalZeros : List Nat :=
  [0x30, 0x660, 0x6f0, 0x7c0, 0x966, 0x9e6, 0xa66, 0xae6, 0xb66, 0xbe6, 0xc66, 0xce6,
   0xd66, 0xde6, 0xe50, 0xed0, 0xf20, 0x1040, 0x1090, 0x17e0, 0x1810, 0x1946, 0x19d0,
   0x1a80, 0x1a90, 0x1b50, 0x1bb0, 0x1c40, 0x1c50, 0xa620, 0xa8d0, 0xa900, 0xa9d0, 0xa9f0,
   0xaa50, 0xabf0, 0xff10, 0x104a0, 0x10d30, 0x11066, 0x110f0, 0x11136, 0x111d0, 0x112f0,
   0x11450, 0x114d0, 0x11650, 0x116c0, 0x11730, 0x118e0, 0x11950, 0x11c50, 0x11d50,
   0x11da0, 0x16a60, 0x16ac0, 0x16b50, 0x1d7ce, 0x1d7d8, 0x1d7e2, 0x1d7ec, 0x1d7f6,
   0x1e140, 0x1e2f0, 0x1e950, 0x1fbf0]

/-- The value of a decimal digit of any script. -/
def digitValue? (c : Char) : Option Nat :=
  (decimalZeros.find? fun code => code ≤ c.toNat && c.toNat ≤ code + 9).map (c.toNat - ·)

/-- The values of a run of digits in which single underscores may stand
between two digits. -/
def digitRun? : List Char → Option (List Nat)
  | [] => none
  | [c] => (digitValue? c).map ([·])
  | c :: '_' :: rest => do
    let digit ← digitValue? c
    let digits ← digitRun? rest
    return digit :: digits
  | c :: rest => do
    let digit ← digitValue? c
    let digits ← digitRun? rest
    return digit :: digits

/-- The most digits an integer may be written with. -/
def maxIntegerDigits : Nat := 4300

/-- A run of digits as a number, if it is not too long. -/
def natural? (text : List Char) : Option Nat := do
  let digits ← digitRun? text
  guard (digits.length ≤ maxIntegerDigits)
  return digits.foldl (fun value digit => 10 * value + digit) 0

/-- The integer a text spells. -/
def integer? (text : String) : Option Int :=
  match trim isSpace text.toList with
  | '+' :: digits => (natural? digits).map Int.ofNat
  | '-' :: digits => (natural? digits).map fun n => -(n : Int)
  | digits => (natural? digits).map Int.ofNat

end ReversePolish.Text
