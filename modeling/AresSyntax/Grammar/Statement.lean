import AresSyntax.Grammar.Expression

/-!
Statements.

Main definition: `Grammar.statement`, which tells the statements apart by their first token, and
a subroutine with a name from one without by the second.
-/
namespace AresSyntax.Grammar
open Parse

/-- A condition and a block that depends on it, under the word that starts them. -/
def guarded (limit : Option Nat) (again : Grammar) : Parse Tree := do
  let start ← advance
  let condition ← again .expression
  let body ← block limit again
  return .node start [condition, body]

/-- A further condition with its block, behind `elif`. -/
def elifClause? (limit : Option Nat) (again : Grammar) : Parse (Option (List Tree)) := do
  if ← accept (.keyword .elifWord) then
    let condition ← again .expression
    let body ← block limit again
    return some [condition, body]
  else return none

/-- The further conditions and blocks, side by side under one node. The node stands where the
first of them would, also if there is none. -/
def elifClauses (limit : Option Nat) (again : Grammar) : Parse Tree := do
  let start ← current
  let clauses ← collect (elifClause? limit again)
  return .node (Label.elifClauses.token start.location) clauses.flatten

/-- The block behind `else`, if there is one. -/
def elseBlock (limit : Option Nat) (again : Grammar) : Parse (List Tree) := do
  if ← accept (.keyword .elseWord) then return [← block limit again] else return []

/-- A conditional: condition, block and further clauses, and the last block if there is one. -/
def conditional (limit : Option Nat) (again : Grammar) : Parse Tree := do
  let .node start first ← guarded limit again
  let clauses ← elifClauses limit again
  let last ← elseBlock limit again
  return .node start (first ++ clauses :: last)

/-- A loop over the elements of a value. -/
def iteration (limit : Option Nat) (again : Grammar) : Parse Tree := do
  let start ← advance
  let variableName ← identifier .identifier
  let _ ← expect (.keyword .inWord) .inWord
  let range ← again .expression
  let body ← block limit again
  return .node start [variableName, range, body]

/-- A word before an expression. -/
def commanded (again : Grammar) : Parse Tree := do
  let start ← advance
  return .node start [← again .expression]

/-- The way out of a subroutine, with a value unless the statement ends at once. -/
def returned (again : Grammar) : Parse Tree := do
  unless (← get).inSubroutine do refuse .returnOutside
  let start ← advance
  if (← current).kind.endsReturn then return .leaf start
  return .node start [← again .expression]

/-- A statement. A `def` before a parenthesis starts an expression. -/
def statement (limit : Option Nat) (again : Grammar) : Parse Tree := do
  match (← current).kind with
  | .keyword .defWord =>
    if (← get).next.kind = .mark .openParen then expression limit again
    else subroutineDeclaration limit again
  | .keyword .ifWord => conditional limit again
  | .keyword .whileWord | .keyword .untilWord => guarded limit again
  | .keyword .forWord => iteration limit again
  | .keyword .importWord | .keyword .debugWord => commanded again
  | .keyword .returnWord => returned again
  | _ => expression limit again

end AresSyntax.Grammar
