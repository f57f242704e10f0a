import AresSyntax.Token.Basic
import AresSyntax.Fault.Lexical

/-!
Lexemes, read from the text that starts with them and without regard to where that text stands.

Main definitions:
* `Lexeme`: kind, shown text and value;
* `Lexeme.Flaw`: what is wrong with a lexeme, and how far into it;
* `Lexeme.Reading`: how many characters were read, and what they are.
-/
namespace AresSyntax

/-- A token without its place. -/
structure Lexeme where
  kind : Kind
  text : String
  value : Option Value := none
  deriving DecidableEq, Repr

namespace Lexeme

/-- A lexical error `offset` characters behind the start of the lexeme, or too many digits. -/
inductive Flaw
  | error (e : LexicalError) (offset : Nat)
  | tooManyDigits (count : Nat)
  deriving DecidableEq, Repr

/-- What was read: `length` characters are used up, also by a lexeme with a flaw. -/
structure Reading where
  length : Nat
  result : Except Flaw Lexeme

namespace Reading

/-- A lexeme whose shown text is its spelling. -/
def spelled (text : List Char) (kind : Kind) (value : Option Value) : Reading :=
  ⟨text.length, .ok ⟨kind, String.ofList text, value⟩⟩

/-- An error at `offset` after `length` characters. -/
def fail (e : LexicalError) (offset length : Nat) : Reading := ⟨length, .error (.error e offset)⟩

end Reading
end Lexeme
end AresSyntax
