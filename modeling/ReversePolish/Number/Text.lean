/-
ReversePolish/Number/Text.lean

How numbers are written.  Both notations use the fewest digits that read back
(`Magnitude.shortest`) and differ in layout only:

* `Number.text`, the language's own: always positional, whole numbers without
  a point, so that a number has one text and the text reads back;
* `Number.hostText`, in which the host writes its replies and dumps: always
  with a point or an exponent, the latter outside `10 ^ (-4)` to `10 ^ 16`.
-/
import ReversePolish.Number.Decimal

namespace ReversePolish.Number

/-- The sign of a text. -/
def signText (negative : Bool) : String := if negative then "-" else ""

/-- The canonical text of a number: no exponent, no digit that is not
needed. -/
def text : Number → String
  | nan => "NaN"
  | signed s m =>
    signText s ++ if m.isInfinite then "inf" else String.ofList m.shortest.positional

/-- The decimal exponent of the first digit. -/
def leadingPlace (d : Decimal) : Int :=
  (Nat.toDigits 10 d.digits).length + d.exponent - 1

/-- Scientific notation: one digit before the point, and an exponent with a
sign and at least two digits. -/
def scientific (d : Decimal) : String :=
  let mantissa := match Nat.toDigits 10 d.digits with
    | first :: second :: rest => first :: '.' :: second :: rest
    | single => single
  let place := leadingPlace d
  let exponent := Nat.toDigits 10 place.natAbs
  String.ofList (mantissa ++ 'e' :: (if place < 0 then '-' else '+') ::
    (List.replicate (2 - exponent.length) '0' ++ exponent))

/-- The text of a number in the host's notation. -/
def hostText : Number → String
  | nan => "nan"
  | signed s m =>
    signText s ++
      if m.isInfinite then "inf"
      else
        let d := m.shortest
        if -4 ≤ leadingPlace d ∧ leadingPlace d < 16 then
          String.ofList d.positional ++ if 0 ≤ d.exponent then ".0" else ""
        else scientific d

end ReversePolish.Number
