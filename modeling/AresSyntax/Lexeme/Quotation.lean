import AresSyntax.Lexeme.Basic
import AresSyntax.Text.Digits

/-!
String literals: characters and escapes between two equal quotes.

Main definitions:
* `Lexeme.escapes`: the escapes of a backslash and one character;
* `Lexeme.quotation`: the string literal at the start of a text.
-/
namespace AresSyntax.Lexeme

/-- The characters that may follow a backslash, with what they stand for. -/
def escapes : List (Char × Char) :=
  [('"', '"'), ('\\', '\\'), ('\'', '\''), ('n', '\n'), ('r', '\r'), ('t', '\t')]

/-- A string literal of `length` characters with the given contents. -/
def string (contents : List Char) (length : Nat) : Reading :=
  let text := String.ofList contents
  ⟨length, .ok ⟨.literal .string, text, some (.string text)⟩⟩

/-- Reads on inside a string literal behind `n` characters of it, which stand for the characters
of `contents` in reverse. An escape with a flaw is left at the first character that does not fit;
a literal that the text leaves open is reported where it starts. -/
def quotationFrom (quote : Char) : Nat → List Char → List Char → Reading
  | n, _, [] => .fail .unterminatedString 0 n
  | n, contents, c :: cs =>
    if c = quote then string contents.reverse (n + 1)
    else if c = '\\' then
      match cs with
      | [] => .fail .unterminatedString 0 (n + 1)
      | e :: cs =>
        match escapes.lookup e with
        | some d => quotationFrom quote (n + 2) (d :: contents) cs
        | none =>
          if e = 'x' then
            match cs with
            | [] => .fail .incompleteHexEscape (n + 2) (n + 2)
            | high :: cs =>
              if Text.isHexDigit high then
                match cs with
                | [] => .fail .incompleteHexEscape (n + 3) (n + 3)
                | low :: cs =>
                  if Text.isHexDigit low then
                    quotationFrom quote (n + 4)
                      (Char.ofNat (Text.digitsValue 16 [high, low]) :: contents) cs
                  else .fail .incompleteHexEscape (n + 3) (n + 3)
              else .fail .incompleteHexEscape (n + 2) (n + 2)
          else .fail (.invalidEscape (String.singleton e)) (n + 1) (n + 1)
    else quotationFrom quote (n + 1) (c :: contents) cs

/-- The string literal with an opening `quote` before the text `cs`. -/
def quotation (quote : Char) (cs : List Char) : Reading := quotationFrom quote 1 [] cs

end AresSyntax.Lexeme
