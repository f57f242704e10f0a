import AresSyntax.Token.Kind

/-!
How tightly binary operators bind.

Main definitions:
* `Precedence.rank`: the levels as numbers, loosest first;
* `BinaryOp.precedence`: the level of an operator;
* `Kind.precedence`: the level of any kind, `none` for what is no binary operator.
-/
namespace AresSyntax

/-- Levels of binding, loosest first. -/
inductive Precedence
  | none | assignment | range | or | and | equality | comparison
  | bitOr | bitXor | bitAnd | shift | term | factor | unary
  deriving DecidableEq, Repr

namespace Precedence

def rank : Precedence → Nat
  | none => 0
  | assignment => 1
  | range => 2
  | or => 3
  | and => 4
  | equality => 5
  | comparison => 6
  | bitOr => 7
  | bitXor => 8
  | bitAnd => 9
  | shift => 10
  | term => 11
  | factor => 12
  | unary => 13

def name : Precedence → String
  | none => "NONE"
  | assignment => "ASSIGNMENT"
  | range => "RANGE"
  | or => "OR"
  | and => "AND"
  | equality => "EQUALITY"
  | comparison => "COMPARISON"
  | bitOr => "BITWISE_OR"
  | bitXor => "BITWISE_XOR"
  | bitAnd => "BITWISE_AND"
  | shift => "SHIFT"
  | term => "TERM"
  | factor => "FACTOR"
  | unary => "UNARY"

def all : List Precedence :=
  [none, assignment, range, or, and, equality, comparison, bitOr, bitXor, bitAnd, shift, term,
   factor, unary]

end Precedence

def BinaryOp.precedence : BinaryOp → Precedence
  | .range => .range
  | .or => .or
  | .and => .and
  | .equal | .notEqual => .equality
  | .less | .lessEqual | .greater | .greaterEqual => .comparison
  | .bitOr => .bitOr
  | .bitXor => .bitXor
  | .bitAnd => .bitAnd
  | .shiftLeft | .shiftRight => .shift
  | .plus | .minus => .term
  | .times | .divide | .modulo => .factor

/-- The level of a kind as a binary operator. -/
def Kind.precedence : Kind → Precedence
  | .binary op => op.precedence
  | _ => .none

/-- Every binary operator lies strictly between assignment and the prefix operators. -/
theorem BinaryOp.rank_bounds (op : BinaryOp) :
    Precedence.range.rank ≤ op.precedence.rank ∧
      op.precedence.rank < Precedence.unary.rank := by
  cases op <;> decide

end AresSyntax
