import AresSyntax.Token.Basic
import AresSyntax.Token.Precedence
import AresSyntax.Token.Spelling

/-!
The tables of the language, as pairs of a key and what belongs to it, or as lists of kinds.

Main definitions:
* `Tables.kinds`, `Tables.precedences`, `Tables.imaginary`: kinds with ordinals, levels and
  mnemonics;
* `Tables.withClass`: the kinds of a class.
-/
namespace AresSyntax.Tables

/-- Every kind with its ordinal, which counts from one. -/
def kinds : List (Kind × Nat) := Kind.all.zipIdx 1

/-- The binary operators with their levels. -/
def precedences : List (Kind × Precedence) :=
  BinaryOp.all.map fun op => (.binary op, op.precedence)

/-- The labels with the text that their tokens show. -/
def imaginary : List (Kind × String) := Label.all.map fun l => (.label l, l.mnemonic)

/-- The kinds for which `holds` is true. -/
def withClass (holds : Kind → Bool) : List Kind := Kind.all.filter holds

end AresSyntax.Tables
