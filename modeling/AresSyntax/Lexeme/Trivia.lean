/-!
What may stand between tokens: blanks, line comments from `#` up to the line end, and long
comments between two marks `===`. A line end is not trivia.

Main definitions:
* `Trivia.Mode`: where in the trivia a reader is;
* `Trivia.read`: the trivia at the start of a text.
-/
namespace AresSyntax

/-- The trivia at the start of a text: its length, and where the long comment starts that the text
leaves open, if it does. -/
structure Trivia where
  length : Nat
  unclosed : Option Nat
  deriving DecidableEq, Repr

namespace Trivia

/-- Between comments, in a line comment, or in a long comment that starts at `opened`. -/
inductive Mode
  | between
  | line
  | long (opened : Nat)
  deriving DecidableEq, Repr

def isBlank (c : Char) : Bool := c == ' ' || c == '\t' || c == '\r'

/-- Reads on in a mode behind `n` characters of trivia. The first mark behind the opening one
closes a long comment, and a mark in a line comment has no meaning. -/
def readFrom : Mode → Nat → List Char → Trivia
  | .between, n, [] => ⟨n, none⟩
  | .line, n, [] => ⟨n, none⟩
  | .long opened, n, [] => ⟨n, some opened⟩
  | mode, n, '=' :: '=' :: '=' :: cs =>
    match mode with
    | .between => readFrom (.long n) (n + 3) cs
    | .line => readFrom .line (n + 3) cs
    | .long _ => readFrom .between (n + 3) cs
  | mode, n, c :: cs =>
    match mode with
    | .between =>
      if isBlank c then readFrom .between (n + 1) cs
      else if c = '#' then readFrom .line (n + 1) cs
      else ⟨n, none⟩
    | .line => if c = '\n' then ⟨n, none⟩ else readFrom .line (n + 1) cs
    | .long opened => readFrom (.long opened) (n + 1) cs

/-- The longest trivia at the start of a text. -/
def read (cs : List Char) : Trivia := readFrom .between 0 cs

end Trivia
end AresSyntax
