import AresSyntax.Grammar.Reader

/-!
Blocks and subroutines. The rules of the grammar refer to each other in a circle; a rule that
needs another one at the start of the circle is given it as an argument.

Main definitions:
* `Goal`, `Grammar`: what a rule may ask for, and the answer to all of these;
* `Grammar.block`: statements between braces;
* `Grammar.subroutineDeclaration`, `Grammar.subroutineLiteral`: subroutines with a name and
  without one.
-/
namespace AresSyntax

/-- What a rule may ask of the grammar for a part of its construct: a statement, an expression on
a nesting level of its own, the value of an assignment, or the operand of a prefix operator. -/
inductive Goal
  | statement | expression | assignment | operand
  deriving DecidableEq, Repr

/-- A way to read what a rule may ask for. -/
abbrev Grammar := Goal → Parse Tree

namespace Grammar
open Parse

/-- The end of a statement: a semicolon with the line ends behind it, or line ends. What else may
stand there is up to `otherwise`. -/
def separator (otherwise : Parse Unit) : Parse Unit := do
  if ← check (.mark .semicolon) then
    let _ ← advanceLines
  else if ← check (.mark .newline) then skipNewlines
  else otherwise

/-- The end of a statement in a block, where the closing brace may follow. -/
def blockSeparator : Parse Unit :=
  separator do
    unless ← check (.mark .closeBrace) do refuse (.expected .newline)

/-- A further statement of a block, unless the block or the text ends. -/
def blockStatement? (again : Grammar) : Parse (Option Tree) := do
  if (← current).kind ∈ [.mark .closeBrace, .endOfText] then return none
  let statement ← again .statement
  blockSeparator
  return some statement

/-- Statements between braces, which are a level of nesting. -/
def block (limit : Option Nat) (again : Grammar) : Parse Tree := do
  skipNewlines
  let opening ← expect (.mark .openBrace) .openBlock
  skipNewlines
  let statements ← nested limit (collect (blockStatement? again))
  let _ ← expect (.mark .closeBrace) .closeBlock
  return .node (Label.block.token opening.location) statements

def identifier (e : Expectation) : Parse Tree := do
  return .leaf (← expect (.literal .ident) e)

/-- Identifiers in parentheses. -/
def parameters : Parse Tree := do
  let opening ← expect (.mark .openParen) .openParameters
  skipNewlines
  let names ←
    if ← check (.mark .closeParen) then pure [] else commaSeparated (identifier .parameter)
  skipNewlines
  let _ ← expect (.mark .closeParen) .closeParameters
  return .node (Label.subParams.token opening.location) names

/-- The parameters and the body of a subroutine. -/
def parametersAndBody (limit : Option Nat) (again : Grammar) : Parse (List Tree) := do
  let params ← parameters
  let body ← inSubroutine (block limit again)
  return [params, body]

/-- A subroutine with a name, which is a statement. -/
def subroutineDeclaration (limit : Option Nat) (again : Grammar) : Parse Tree := do
  let start ← advance
  let name ← identifier .identifier
  let parts ← parametersAndBody limit again
  return .node (Label.subDecl.token start.location) (name :: parts)

/-- A subroutine without a name, which is an expression. -/
def subroutineLiteral (limit : Option Nat) (again : Grammar) : Parse Tree := do
  let start ← advance
  let parts ← parametersAndBody limit again
  return .node (Label.subLiteral.token start.location) parts

end Grammar
end AresSyntax
