import AresSyntax.Lexeme.Reading
import AresSyntax.Lexeme.Trivia

/-!
Reading a named text token by token. A cursor holds what is still to be read and where that
starts; a fault leaves it behind what was used up, and reading goes on from there.

Main definitions:
* `Cursor.read`: the next token or fault, and the cursor behind it;
* `Cursor.take`, `Cursor.readAll`: several tokens, and all that are left;
* `tokenize`: the tokens of a text.
-/
namespace AresSyntax

/-- What reading at a place gives. -/
abbrev Outcome := Except ReadFault Token

/-- A place in a text called `file`, and the text behind it. -/
structure Cursor where
  file : String
  position : Position
  rest : List Char
  deriving DecidableEq, Repr

namespace Cursor

def ofText (file text : String) : Cursor := ⟨file, .start, text.toList⟩

def location (c : Cursor) : Location := ⟨c.position, c.file⟩

/-- The cursor behind the next `n` characters. -/
def skip (c : Cursor) (n : Nat) : Cursor :=
  ⟨c.file, c.position.past (c.rest.take n), c.rest.drop n⟩

/-- A reading as the outcome at the cursor where it starts. -/
def outcome (c : Cursor) (r : Lexeme.Reading) : Outcome :=
  match r.result with
  | .ok l => .ok ⟨l.kind, l.text, l.value, c.location⟩
  | .error (.error e offset) => .error (.lexical e (c.skip offset).location)
  | .error (.tooManyDigits count) => .error (.tooManyDigits count)

/-- Reads the next token behind trivia. At the end of the text this is the end token, again and
again. -/
def read (c : Cursor) : Outcome × Cursor :=
  let trivia := Trivia.read c.rest
  let start := c.skip trivia.length
  match trivia.unclosed with
  | some opened => (.error (.lexical .unterminatedComment (c.skip opened).location), start)
  | none =>
    let reading := Lexeme.read start.rest
    (start.outcome reading, start.skip reading.length)

/-- Reads at most `n` tokens, and none behind the end token. -/
def take : Nat → Cursor → Except ReadFault (List Token) × Cursor
  | 0, c => (.ok [], c)
  | n + 1, c =>
    match c.read with
    | (.error f, c) => (.error f, c)
    | (.ok t, c) =>
      if t.kind = .endOfText then (.ok [t], c)
      else match take n c with
        | (.ok ts, c) => (.ok (t :: ts), c)
        | (.error f, c) => (.error f, c)

/-- Reads up to the end token. Every other token takes a character. -/
def readAll (c : Cursor) : Except ReadFault (List Token) × Cursor := c.take (c.rest.length + 1)

end Cursor

/-- The tokens of a text up to and with the end token. -/
def tokenize (text file : String) : Except ReadFault (List Token) :=
  (Cursor.ofText file text).readAll.1

end AresSyntax
