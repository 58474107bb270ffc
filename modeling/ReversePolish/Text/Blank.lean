/-
ReversePolish/Text/Blank.lean

Blank characters and trimming.  Blank are the white space of Unicode and the
four ASCII information separators.
-/

namespace ReversePolish.Text

/-- The ASCII information separators, from file to unit. -/
def isInformationSeparator (c : Char) : Bool := 0x1c ≤ c.toNat && c.toNat ≤ 0x1f

/-- White space. -/
def isSpace (c : Char) : Bool :=
  let n := c.toNat
  (0x9 ≤ n && n ≤ 0xd) || n == 0x20 || n == 0x85 || n == 0xa0 || n == 0x1680 ||
    (0x2000 ≤ n && n ≤ 0x200a) || n == 0x2028 || n == 0x2029 || n == 0x202f ||
    n == 0x205f || n == 0x3000

/-- White space or an information separator. -/
def isBlank (c : Char) : Bool := isSpace c || isInformationSeparator c

/-- A text without the unwanted characters at its two ends. -/
def trim (unwanted : Char → Bool) (text : List Char) : List Char :=
  ((text.dropWhile unwanted).reverse.dropWhile unwanted).reverse

end ReversePolish.Text
