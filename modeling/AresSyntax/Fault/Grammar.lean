import AresSyntax.Token.Basic
import AresSyntax.Fault.Lexical

/-!
What can be wrong with a sequence of tokens.

Main definitions:
* `Expectation`: what should have stood where another token was found;
* `GrammarError`: the causes, each with its code, message and help text;
* `Token.unexpected`: the words that name the found token in a message;
* `ParseFault`: why no tree could be built.
-/
namespace AresSyntax

/-- What the grammar demands at a place that admits one continuation. -/
inductive Expectation
  | endOfText | newline | identifier | parameter | openParameters | closeParameters
  | inWord | openBlock | closeBlock | closeGroup | closeSubscript | closeCall
  | closeArray | arrow | closeHash
  deriving DecidableEq, Repr

def Expectation.message : Expectation → String
  | .endOfText => "expected end-of-file"
  | .newline => "expected newline"
  | .identifier => "expected identifier"
  | .parameter => "expected identifier as argument"
  | .openParameters => "expected '(' to open parameter list"
  | .closeParameters => "expected ')' to close parameter list"
  | .inWord => "expected keyword 'in' before expression"
  | .openBlock => "expected '\x7b' to open block"
  | .closeBlock => "expected '\x7d' to close block"
  | .closeGroup => "expected ')'"
  | .closeSubscript => "expected ']' to close subscript"
  | .closeCall => "expected ')' to close the function call"
  | .closeArray => "expected ']' to close array literal"
  | .arrow => "expected '=>'"
  | .closeHash => "expected '\x7d' to close hash literal"

/-- Why a token cannot continue a program. -/
inductive GrammarError
  | expected (e : Expectation)
  | assignmentTarget
  | returnOutside
  | expectedExpression
  | nestedTooDeeply
  deriving DecidableEq, Repr

namespace GrammarError

def code : GrammarError → String
  | expected _ => "P001"
  | assignmentTarget => "P002"
  | returnOutside => "P003"
  | expectedExpression => "P004"
  | nestedTooDeeply => "P005"

/-- The codes with their titles. -/
def titles : List (String × String) :=
  [("P001", "Unexpected token"),
   ("P002", "Invalid assignment target"),
   ("P003", "Return outside subroutine"),
   ("P004", "Expected expression"),
   ("P005", "Nesting too deep")]

def message : GrammarError → String
  | expected e => e.message
  | assignmentTarget => "invalid assignment target"
  | returnOutside => "'return' outside subroutine"
  | expectedExpression => "expected expression"
  | nestedTooDeeply => "expression nested too deeply"

def help? : GrammarError → Option String
  | assignmentTarget => some "Only identifiers and subscripts can be assigned to."
  | returnOutside => some "'return' may only appear in the body of a 'def'."
  | nestedTooDeeply => some "Split the expression or block into smaller pieces."
  | expected _ | expectedExpression => none

end GrammarError

namespace Token

/-- Names the kind of a token that was found where it does not belong. -/
def unexpected (t : Token) : String :=
  match t.kind with
  | .mark .newline => "unexpected newline, "
  | .endOfText => "unexpected end-of-file, "
  | .literal _ => "unexpected literal near '" ++ t.text ++ "', "
  | .keyword _ => "unexpected keyword near '" ++ t.text ++ "', "
  | _ => "unexpected symbol near '" ++ t.text ++ "', "

/-- The diagnostic at a token that does not belong where it was found. -/
def diagnostic (t : Token) (message : String) (code help : Option String) : Diagnostic :=
  { message := t.unexpected ++ message, location := t.location, code, help }

end Token

def GrammarError.diagnostic (e : GrammarError) (found : Token) : Diagnostic :=
  found.diagnostic e.message (some e.code) e.help?

/-- Why no tree could be built: no token could be read, or a token does not fit. -/
inductive ParseFault
  | reading (f : ReadFault)
  | grammar (e : GrammarError) (found : Token)
  deriving DecidableEq, Repr

end AresSyntax
