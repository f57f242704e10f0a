import AresSyntax.Lexeme.Basic
import AresSyntax.Text.Digits

/-!
Numbers: decimal and hexadecimal integers up to the largest signed 64-bit one, and floats.

Main definitions:
* `Lexeme.number`: the decimal integer or float at the start of a text;
* `Lexeme.hexadecimal`: the hexadecimal integer at the start of a text.
-/
namespace AresSyntax.Lexeme

/-- The greatest integer that a literal may have for its value, the last one before two to the
power of 63. -/
def greatestInteger : Nat := 0x7fffffffffffffff

/-- An integer spelled `text`, which is refused as a whole if its value is too large. -/
def integer (text : List Char) (value : Nat) : Reading :=
  if value ≤ greatestInteger then .spelled text (.literal .integer) (some (.integer value))
  else .fail .numberTooLarge 0 text.length

/-- A decimal integer. The value of a run beyond the digit limit is not looked at. -/
def decimal (digits : List Char) : Reading :=
  if digitLimit < digits.length then ⟨digits.length, .error (.tooManyDigits digits.length)⟩
  else integer digits (Text.digitsValue 10 digits)

/-- A float with the digits `whole` before and `part` behind its point. -/
def float (whole part : List Char) : Reading :=
  .spelled (whole ++ '.' :: part) (.literal .float)
    (some (.float (Binary64.ofDigits false whole part 0)))

/-- The decimal integer or float at the start of a text, which starts with a digit. A point makes
a float unless a second point follows, so `1.` is a float and `1..2` a range. -/
def number (cs : List Char) : Reading :=
  let whole := cs.takeWhile Char.isDigit
  match cs.dropWhile Char.isDigit with
  | '.' :: rest =>
    if rest.head? = some '.' then decimal whole else float whole (rest.takeWhile Char.isDigit)
  | _ => decimal whole

/-- The hexadecimal integer at the start of a text, which starts with a zero and an `x` of either
case. -/
def hexadecimal (cs : List Char) : Reading :=
  let digits := (cs.drop 2).takeWhile Text.isHexDigit
  if digits.isEmpty then .fail .malformedHex 0 2
  else integer (cs.take 2 ++ digits) (Text.digitsValue 16 digits)

end AresSyntax.Lexeme
