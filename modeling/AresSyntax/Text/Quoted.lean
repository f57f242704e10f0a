import AresSyntax.Text.Printable

/-!
Text between quotes, as messages and listings show it. The quoted form is one line: line ends,
tabs and unprintable characters are written as escapes.

Main definitions:
* `Text.hexadecimal`: a number in hexadecimal, filled up with zeros;
* `Text.quoted`: the quoted form of a text.
-/
namespace AresSyntax.Text

/-- Writes `n` in lower-case hexadecimal with at least `width` digits. -/
def hexadecimal (width n : Nat) : String :=
  let digits := Nat.toDigits 16 n
  String.ofList (List.replicate (width - digits.length) '0' ++ digits)

/-- Writes a code point as the shortest of the forms `\xhh`, `\uhhhh` and `\Uhhhhhhhh`. -/
def codePointEscape (c : Char) : String :=
  if c.toNat ≤ 0xff then "\\x" ++ hexadecimal 2 c.toNat
  else if c.toNat ≤ 0xffff then "\\u" ++ hexadecimal 4 c.toNat
  else "\\U" ++ hexadecimal 8 c.toNat

/-- One character as it stands between a pair of `quote`s. -/
def quotedChar (quote c : Char) : String :=
  if c = quote ∨ c = '\\' then String.ofList ['\\', c]
  else if c = '\n' then "\\n"
  else if c = '\r' then "\\r"
  else if c = '\t' then "\\t"
  else if isPrintable c then String.singleton c
  else codePointEscape c

/-- Single quotes, unless the text has one of these and no double quote. -/
def quoteFor (s : List Char) : Char :=
  if '\'' ∈ s ∧ '"' ∉ s then '"' else '\''

/-- The text between quotes. -/
def quoted (s : String) : String :=
  let quote := quoteFor s.toList
  String.singleton quote ++ String.join (s.toList.map (quotedChar quote)) ++ String.singleton quote

end AresSyntax.Text
