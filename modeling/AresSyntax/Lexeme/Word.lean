import AresSyntax.Lexeme.Basic
import AresSyntax.Token.Spelling

/-!
Words: runs of letters and underscores. A word that is not reserved is an identifier.

Main definitions:
* `Lexeme.isLetter`: the characters of words;
* `Lexeme.word`: the word at the start of a text.
-/
namespace AresSyntax.Lexeme

/-- The ASCII letters and the underscore. -/
def isLetter (c : Char) : Bool := c.isAlpha || c == '_'

/-- The value of a word that is a literal for a truth value. -/
def truthValue? : Kind → Option Value
  | .literal .trueWord => some (.bool true)
  | .literal .falseWord => some (.bool false)
  | _ => none

/-- The word at the start of a text, which starts with a letter. -/
def word (cs : List Char) : Reading :=
  let text := cs.takeWhile isLetter
  let kind := (reservedWords.lookup text).getD (.literal .ident)
  .spelled text kind (truthValue? kind)

end AresSyntax.Lexeme
