import AresSyntax.Lexeme.Word
import AresSyntax.Lexeme.Number
import AresSyntax.Lexeme.Quotation

/-!
The lexeme at the start of a text.

Main definitions:
* `Lexeme.symbol?`: the longest operator, bracket or separator;
* `Lexeme.read`: the lexeme of any kind.
-/
namespace AresSyntax.Lexeme

/-- The longest spelling of `symbols` that the text starts with, and its kind. -/
def symbol? (cs : List Char) : Option (List Char × Kind) :=
  (List.range longestSymbol).reverse.findSome? fun n =>
    symbols.find? fun s => s.1 == cs.take (n + 1)

/-- The lexeme at the start of a text without trivia before it. A character that starts no lexeme
is not used up. -/
def read : List Char → Reading
  | [] => ⟨0, .ok { kind := .endOfText, text := "" }⟩
  | c :: cs =>
    if c = '\n' then .spelled ['\n'] (.mark .newline) none
    else if isLetter c then word (c :: cs)
    else if c = '0' ∧ (cs.head? = some 'x' ∨ cs.head? = some 'X') then hexadecimal (c :: cs)
    else if c.isDigit then number (c :: cs)
    else if c = '"' ∨ c = '\'' then quotation c cs
    else match symbol? (c :: cs) with
      | some (text, kind) => .spelled text kind none
      | none => .fail (.unrecognized c) 0 0

end AresSyntax.Lexeme
