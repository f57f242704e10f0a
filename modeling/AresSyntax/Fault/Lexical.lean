import AresSyntax.Diagnostic

/-!
What can be wrong with a lexeme.

Main definitions:
* `LexicalError`: the causes, each with its code, message and help text;
* `ReadFault`: why no token could be read, and where.
-/
namespace AresSyntax

/-- Why a text is no lexeme. -/
inductive LexicalError
  | unrecognized (c : Char)
  | unterminatedString
  | numberTooLarge
  | invalidEscape (shown : String)
  | incompleteHexEscape
  | unterminatedComment
  | malformedHex
  deriving DecidableEq, Repr

namespace LexicalError

def code : LexicalError → String
  | unrecognized _ => "L001"
  | unterminatedString => "L002"
  | numberTooLarge => "L003"
  | invalidEscape _ => "L004"
  | incompleteHexEscape => "L005"
  | unterminatedComment => "L006"
  | malformedHex => "L007"

/-- The codes with their titles. -/
def titles : List (String × String) :=
  [("L001", "Unrecognized character"),
   ("L002", "Unterminated string literal"),
   ("L003", "Number literal overflow"),
   ("L004", "Invalid escape sequence"),
   ("L005", "Incomplete hex escape sequence"),
   ("L006", "Unterminated long comment"),
   ("L007", "Malformed hexadecimal literal")]

/-- A character in a message: itself if it can be shown, else a short escape. -/
def shownChar (c : Char) : String :=
  if Text.isPrintable c then String.singleton c
  else if c.toNat ≤ 0xff then "\\x" ++ Text.hexadecimal 2 c.toNat
  else "\\u" ++ Text.hexadecimal 4 c.toNat

/-- The advice for a character that starts no token. A character that cannot be shown is named by
its code point in upper case. -/
def unrecognizedHelp (c : Char) : String :=
  if Text.isPrintable c then
    "The character '" ++ String.singleton c ++ "' is not valid outside strings and comments."
  else
    "Non-printable character (U+" ++ (Text.hexadecimal 4 c.toNat).map Char.toUpper ++
      ") is not allowed."

def message : LexicalError → String
  | unrecognized c => "unrecognized character '" ++ shownChar c ++ "'"
  | unterminatedString => "unterminated string literal"
  | numberTooLarge => "number literal was too large"
  | invalidEscape shown => "invalid escape character " ++ shown
  | incompleteHexEscape => "incomplete hex escape sequence"
  | unterminatedComment => "unterminated long comment"
  | malformedHex => "malformed hexadecimal literal"

def help : LexicalError → String
  | unrecognized c => unrecognizedHelp c
  | unterminatedString =>
    "String literals must be closed with the same quote they were opened with."
  | numberTooLarge => "Integer literals must fit in a signed 64-bit integer."
  | invalidEscape _ => "Valid escapes are \\\" \\\\ \\' \\n \\r \\t and \\xNN."
  | incompleteHexEscape => "A \\x escape takes exactly two hexadecimal digits."
  | unterminatedComment => "Long comments opened with '===' must be closed with '==='."
  | malformedHex => "A '0x' prefix must be followed by at least one hexadecimal digit."

def diagnostic (e : LexicalError) (location : Location) : Diagnostic :=
  { message := e.message, location, code := some e.code, help := some e.help }

end LexicalError

/-- Why no token could be read: a lexical error with its place, or a decimal integer with so many
digits that its value is not computed at all. -/
inductive ReadFault
  | lexical (e : LexicalError) (location : Location)
  | tooManyDigits (count : Nat)
  deriving DecidableEq, Repr

/-- The greatest number of digits of a decimal integer whose value is computed. -/
def digitLimit : Nat := 4300

/-- The message for a decimal integer of `count` digits, which has no place in a source. -/
def digitLimitMessage (count : Nat) : String :=
  "Exceeds the limit (" ++ toString digitLimit ++ " digits) for integer string conversion: value has " ++
    toString count ++ " digits; use sys.set_int_max_str_digits() to increase the limit"

end AresSyntax
