import AresSyntax.Grammar.Statement

/-!
Programs: the circle of rules closed, and whole texts.

Main definitions:
* `Limits`: how deep constructs may nest;
* `Grammar.reading`: every rule, by way of the others;
* `Parse.program`: the statements up to the end of the text;
* `parse`: the tree of a text.
-/
namespace AresSyntax

/-- How deep constructs may nest. `nesting` bounds the levels that brackets, blocks and expressions
count; `stack` bounds the rules that wait for another one, where none means as many as the text
can need. -/
structure Limits where
  nesting : Option Nat
  stack : Option Nat

namespace Limits

/-- 256 levels of nesting, and no bound on the call stack: chains of assignments and of prefix
operators may have any length. -/
def standard : Limits := ⟨some 256, none⟩

/-- 256 levels of nesting, and a call stack of ordinary size, on which a long chain of assignments
or of prefix operators is refused like a level of nesting too many. -/
def confined : Limits := ⟨some 256, some 3560⟩

end Limits

namespace Grammar

/-- The rule for each goal. -/
def rule (limit : Option Nat) (again : Grammar) : Grammar
  | .statement => statement limit again
  | .expression => expression limit again
  | .assignment => assignment limit again
  | .operand => operand limit again

/-- Reads any goal, where at most `stack` rules wait for another one. -/
def reading (limit : Option Nat) : (stack : Nat) → Grammar
  | 0 => fun _ => Parse.refuse .nestedTooDeeply
  | stack + 1 => rule limit (reading limit stack)

end Grammar

namespace Parse

/-- A further statement of a program, unless the text ends. -/
def programStatement? (grammar : Grammar) : Parse (Option Tree) := do
  if ← check .endOfText then return none
  let statement ← grammar .statement
  Grammar.separator do
    let _ ← expect .endOfText .endOfText
  return some statement

/-- The statements up to the end of the text. A rule asks for another one behind a token of its
own, so no more rules can wait than there are outcomes to see. -/
def program (limits : Limits) : Parse Tree := do
  let start ← current
  let stack := limits.stack.getD ((← get).ahead.length + 1)
  skipNewlines
  let statements ← collect (programStatement? (Grammar.reading limits.nesting stack))
  return .node (Label.block.token start.location) statements

end Parse

/-- The tree that a reader's program is, and the reader behind it. -/
def Reader.program (limits : Limits) (r : Reader) : Except ParseFault Tree × Reader :=
  match Parse.program limits r with
  | .ok t r => (.ok t, r)
  | .error f r => (.error f, r)

/-- Takes a token by itself. -/
def Reader.advance (r : Reader) : Except ParseFault Token × Reader :=
  match Parse.advance r with
  | .ok t r => (.ok t, r)
  | .error f r => (.error f, r)

/-- The tree of the text called `file`. -/
def parse (limits : Limits) (text file : String) : Except ParseFault Tree :=
  match Reader.start (Cursor.ofText file text).stream with
  | .error f => .error (.reading f)
  | .ok r => (r.program limits).1

end AresSyntax
