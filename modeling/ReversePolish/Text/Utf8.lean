/-
ReversePolish/Text/Utf8.lean

Decoding UTF-8.  Only the shortest encodings of Unicode scalar values are
accepted.  The first flaw found is reported with the bytes it covers:

* an *invalid start byte* can begin no character, and is one byte;
* an *invalid continuation byte* ends a character too soon: the flaw covers
  the bytes of the character that were still right;
* an *unexpected end* cuts the last character short, and covers all of it.
-/
import ReversePolish.Text.Quoted

namespace ReversePolish.Utf8

/-! ### Flaws -/

inductive Reason where
  | startByte
  | continuationByte
  | endOfData
  deriving DecidableEq

/-- Where a text stops being UTF-8: the bytes to blame, of which there is at
least one, and the position of the first. -/
structure Flaw where
  position : Nat
  first : UInt8
  count : Nat
  reason : Reason
  deriving DecidableEq

def Reason.message : Reason → String
  | startByte => "invalid start byte"
  | continuationByte => "invalid continuation byte"
  | endOfData => "unexpected end of data"

def Flaw.message (flaw : Flaw) : String :=
  let place :=
    if flaw.count ≤ 1 then
      "byte 0x" ++ String.ofList (Text.hexadecimal 2 flaw.first.toNat) ++
        " in position " ++ toString flaw.position
    else
      "bytes in position " ++ toString flaw.position ++ "-" ++
        toString (flaw.position + flaw.count - 1)
  "'utf-8' codec can't decode " ++ place ++ ": " ++ flaw.reason.message

/-! ### Characters -/

/-- What a lead byte announces: its own bits of the code, how many bytes
follow, and the range of the first of them, which rules out long encodings,
surrogates and codes that are too large. -/
structure Lead where
  bits : Nat
  following : Nat
  low : Nat := 0x80
  high : Nat := 0xbf

/-- What a byte announces as the first of a character. -/
def lead? (byte : Nat) : Option Lead :=
  if byte < 0x80 then some { bits := byte, following := 0 }
  else if byte < 0xc2 then none
  else if byte < 0xe0 then some { bits := byte - 0xc0, following := 1 }
  else if byte < 0xf0 then
    some { bits := byte - 0xe0, following := 2,
           low := if byte = 0xe0 then 0xa0 else 0x80,
           high := if byte = 0xed then 0x9f else 0xbf }
  else if byte < 0xf5 then
    some { bits := byte - 0xf0, following := 3,
           low := if byte = 0xf0 then 0x90 else 0x80,
           high := if byte = 0xf4 then 0x8f else 0xbf }
  else none

/-- The rest of a character: `owed` continuation bytes, the first within
`[low, high]`.  A failure gives the number of bytes that were right and the
reason. -/
def continuation (code low high : Nat) :
    (owed right : Nat) → List UInt8 → Except (Nat × Reason) (Nat × List UInt8)
  | 0, _, rest => .ok (code, rest)
  | _ + 1, right, [] => .error (right, .endOfData)
  | owed + 1, right, byte :: rest =>
    if low ≤ byte.toNat ∧ byte.toNat ≤ high then
      continuation (code * 64 + (byte.toNat - 0x80)) 0x80 0xbf owed (right + 1) rest
    else .error (right, .continuationByte)

/-- What follows a character is no longer than what followed its first
byte. -/
theorem length_of_continuation {code low high owed right : Nat} {bytes rest : List UInt8}
    {result : Nat} (h : continuation code low high owed right bytes = .ok (result, rest)) :
    rest.length ≤ bytes.length := by
  induction owed generalizing code low high right bytes with
  | zero => cases h; exact Nat.le_refl _
  | succ owed ih =>
    cases bytes with
    | nil => cases h
    | cons byte bytes =>
      rw [continuation] at h
      split at h
      · exact Nat.le_trans (ih h) (Nat.le_succ _)
      · cases h

/-! ### Texts -/

/-- The characters of a byte sequence that starts at a position. -/
def decodeFrom (position : Nat) (bytes : List UInt8) : Except Flaw (List Char) :=
  match bytes with
  | [] => .ok []
  | byte :: following =>
    match lead? byte.toNat with
    | none => .error ⟨position, byte, 1, .startByte⟩
    | some lead =>
      match h : continuation lead.bits lead.low lead.high lead.following 1 following with
      | .error (count, reason) => .error ⟨position, byte, count, reason⟩
      | .ok (code, rest) =>
        (decodeFrom (position + 1 + lead.following) rest).map (Char.ofNat code :: ·)
termination_by bytes.length
decreasing_by
  have := length_of_continuation h
  simp only [List.length_cons]
  omega

/-- Decode a whole text. -/
def decode (bytes : List UInt8) : Except Flaw (List Char) := decodeFrom 0 bytes

/-! ### Lines -/

/-- Every line ending as a newline: a carriage return, alone or before a
newline, ends a line too. -/
def unifyNewlines : List Char → List Char
  | '\r' :: '\n' :: rest => '\n' :: unifyNewlines rest
  | '\r' :: rest => '\n' :: unifyNewlines rest
  | c :: rest => c :: unifyNewlines rest
  | [] => []

end ReversePolish.Utf8
