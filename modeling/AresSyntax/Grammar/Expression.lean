import AresSyntax.Grammar.Block
import AresSyntax.Token.Precedence

/-!
Expressions: atoms with calls and subscripts, prefix operators, binary operators by precedence,
and assignments.

Main definitions:
* `Grammar.atom`, `Grammar.trailed`, `Grammar.operand`: what stands between binary operators;
* `Grammar.climb`: operands with binary operators from some level up;
* `Grammar.assignment`, `Grammar.expression`: whole expressions.
-/
namespace AresSyntax

/-- The token of a prefix operator in a tree, where a minus sign is a negation. -/
def Token.asPrefixOperator (t : Token) : Token :=
  if t.kind = .binary .minus then { t with kind := .negate } else t

namespace Grammar
open Parse

/-- An expression in parentheses, which leave no node. -/
def group (again : Grammar) : Parse Tree := do
  let _ ← advanceLines
  let inner ← again .expression
  skipNewlines
  let _ ← expect (.mark .closeParen) .closeGroup
  return inner

/-- Expressions between commas up to a closing bracket. -/
def expressions (again : Grammar) (closing : Mark) (e : Expectation) : Parse (List Tree) := do
  let items ←
    if ← check (.mark closing) then pure [] else commaSeparated (again .expression)
  skipNewlines
  let _ ← expect (.mark closing) e
  return items

def array (again : Grammar) : Parse Tree := do
  let opening ← advanceLines
  let elements ← expressions again .closeBracket .closeArray
  return .node (Label.arrayDecl.token opening.location) elements

/-- A key and a value with an arrow between them. The node stands where the key does. -/
def hashElement (again : Grammar) : Parse Tree := do
  let start ← current
  let key ← again .expression
  let _ ← expect (.mark .arrow) .arrow
  skipNewlines
  let value ← again .expression
  return .node (Label.hashElem.token start.location) [key, value]

/-- A further element, unless the hash ends. -/
def hashElement? (again : Grammar) : Parse (Option Tree) := do
  if ← check (.mark .closeBrace) then return none
  return some (← hashElement again)

/-- The element behind a comma, unless there is no comma or it is the last sign of the hash. -/
def nextHashElement? (again : Grammar) : Parse (Option Tree) := do
  if ← check (.mark .comma) then
    let _ ← advanceLines
    hashElement? again
  else return none

/-- Elements between commas; a comma may stand behind the last one. -/
def hashElements (again : Grammar) : Parse (List Tree) := do
  match ← hashElement? again with
  | none => return []
  | some first => return first :: (← collect (nextHashElement? again))

def hash (again : Grammar) : Parse Tree := do
  let opening ← advanceLines
  let elements ← hashElements again
  skipNewlines
  let _ ← expect (.mark .closeBrace) .closeHash
  return .node (Label.hashDecl.token opening.location) elements

/-- A literal, an identifier, a collection, an expression in parentheses or a subroutine. -/
def atom (limit : Option Nat) (again : Grammar) : Parse Tree := do
  match (← current).kind with
  | .literal _ => return .leaf (← advance)
  | .mark .openBracket => array again
  | .mark .openBrace => hash again
  | .mark .openParen => group again
  | .keyword .defWord => subroutineLiteral limit again
  | _ => refuse .expectedExpression

def subscript (again : Grammar) (base : Tree) : Parse Tree := do
  let opening ← advanceLines
  let index ← again .expression
  skipNewlines
  let _ ← expect (.mark .closeBracket) .closeSubscript
  return .node (Label.subscript.token opening.location) [base, index]

def call (again : Grammar) (callee : Tree) : Parse Tree := do
  let opening ← advanceLines
  let arguments ← expressions again .closeParen .closeCall
  return .node (Label.call.token opening.location) (callee :: arguments)

/-- The subscript or call of `base`, if one follows. -/
def trailer? (again : Grammar) (base : Tree) : Parse (Option Tree) := do
  match (← current).kind with
  | .mark .openBracket => return some (← subscript again base)
  | .mark .openParen => return some (← call again base)
  | _ => return none

/-- An atom with any number of subscripts and calls behind it. -/
def trailed (limit : Option Nat) (again : Grammar) : Parse Tree := do
  iterate (trailer? again) (← atom limit again)

/-- What stands between binary operators: prefix operators before an atom with its trailers. -/
def operand (limit : Option Nat) (again : Grammar) : Parse Tree := do
  let sign ← current
  if sign.kind.isUnaryOperator then
    let _ ← advanceLines
    return .node sign.asPrefixOperator [← again .operand]
  else trailed limit again

/-- The operator that binds at least as tightly as `least` and its right operand, above `left`, if
such an operator follows. The right operand is read by `right` for the next tighter level. -/
def fold? (least : Nat) (right : Nat → Parse Tree) (left : Tree) : Parse (Option Tree) := do
  let op ← current
  let rank := op.kind.precedence.rank
  if least ≤ rank then
    let _ ← advanceLines
    return some (.node op [left, ← right (rank + 1)])
  else return none

/-- Operands with binary operators that bind at least as tightly as `least`. Right operands bind
tighter than their operator, so operators of one level group to the left, and `levels` operators
of ever tighter levels can wait for their right operand. -/
def climb (operand : Parse Tree) : (levels least : Nat) → Parse Tree
  | 0, _ => operand
  | levels + 1, least => do iterate (fold? least (climb operand levels)) (← operand)

/-- Operands with any binary operators. -/
def binary (limit : Option Nat) (again : Grammar) : Parse Tree :=
  climb (operand limit again) (Precedence.unary.rank - Precedence.range.rank) Precedence.range.rank

/-- A target, an assignment operator and a value, or anything that binds tighter. -/
def assignment (limit : Option Nat) (again : Grammar) : Parse Tree := do
  let left ← binary limit again
  let op ← current
  if op.kind.isAssignment then
    if left.kind.isAssignable then
      let _ ← advanceLines
      return .node op [left, ← again .assignment]
    else refuse .assignmentTarget
  else return left

/-- An expression, which is a level of nesting. -/
def expression (limit : Option Nat) (again : Grammar) : Parse Tree :=
  nested limit (assignment limit again)

end Grammar
end AresSyntax
