import AresSyntax.TokenStream
import AresSyntax.Tree.Basic
import AresSyntax.Fault.Grammar

/-!
Reading tokens as the grammar needs them: the current token and one token of lookahead, the
nesting reached so far, and whether the place is inside a subroutine. A fault ends what was asked
for and leaves the reader as it is, so a later request goes on from there.

Main definitions:
* `Reader`: the state;
* `Parse`: what is asked of a reader;
* `advance`, `accept`, `expect`, `skipNewlines`: single tokens;
* `iterate`, `collect`: repetition;
* `nested`, `inSubroutine`: the two counts that a construct gives back at its end.
-/
namespace AresSyntax

/-- The state of reading a program. -/
structure Reader where
  current : Token
  next : Token
  stream : TokenStream
  depth : Nat
  inSubroutine : Bool
  deriving Repr

/-- Reads the two tokens that a reader starts with. -/
def Reader.start (s : TokenStream) : Except ReadFault Reader :=
  match s.next with
  | (.error f, _) => .error f
  | (.ok current, s) =>
    match s.next with
    | (.error f, _) => .error f
    | (.ok next, stream) => .ok { current, next, stream, depth := 0, inSubroutine := false }

/-- The outcomes that a reader has still to see, beginning with its two tokens. -/
def Reader.ahead (r : Reader) : List Outcome := .ok r.current :: .ok r.next :: r.stream.pending

/-- A request to a reader. -/
abbrev Parse := EStateM ParseFault Reader

namespace Parse

/-- The token that is looked at. -/
def current : Parse Token := fun r => .ok r.current r

/-- Refuses the current token. -/
def refuse {α : Type} (e : GrammarError) : Parse α := fun r => .error (.grammar e r.current) r

/-- Holds if the current token is of kind `k`. -/
def check (k : Kind) : Parse Bool := fun r => .ok (r.current.kind = k) r

/-- Takes the current token and reads a new one for the lookahead. If none can be read, the
lookahead stays what it was, but the current token is gone. -/
def advance : Parse Token := fun r =>
  match r.stream.next with
  | (.ok t, stream) => .ok r.current { r with current := r.next, next := t, stream }
  | (.error f, stream) => .error (.reading f) { r with current := r.next, stream }

/-- Takes the current token if it is of kind `k`, and says whether it was. -/
def accept (k : Kind) : Parse Bool := do
  if ← check k then
    let _ ← advance
    return true
  else return false

/-- Takes the current token, which has to be of kind `k`. -/
def expect (k : Kind) (e : Expectation) : Parse Token := do
  if ← check k then advance else refuse (.expected e)

/-- Repeats a step on its own results until it gives none, at most once more than the list has
elements. -/
def iterateWithin {α : Type} (step : α → Parse (Option α)) : List Outcome → α → Parse α
  | [], a => return (← step a).getD a
  | _ :: more, a => do
    match ← step a with
    | none => return a
    | some b => iterateWithin step more b

/-- Repeats a step on its own results until it gives none. A step that gives a result takes a
token before the end, so there are no more of these than outcomes to see. -/
def iterate {α : Type} (step : α → Parse (Option α)) (a : α) : Parse α := fun r =>
  iterateWithin step r.ahead a r

/-- Collects the results of a step until it gives none, at most one more than the list has
elements. -/
def collectWithin {α : Type} (step : Parse (Option α)) : List Outcome → Parse (List α)
  | [] => return (← step).toList
  | _ :: more => do
    match ← step with
    | none => return []
    | some a => return a :: (← collectWithin step more)

/-- Collects the results of a step until it gives none. A step that gives a result takes a token
before the end, so there are no more of these than outcomes to see. -/
def collect {α : Type} (step : Parse (Option α)) : Parse (List α) := fun r =>
  collectWithin step r.ahead r

/-- Takes line ends as long as there are some. -/
def skipNewlines : Parse Unit :=
  iterate (fun _ => return if ← accept (.mark .newline) then some () else none) ()

/-- Takes the current token and the line ends behind it. -/
def advanceLines : Parse Token := do
  let t ← advance
  skipNewlines
  return t

/-- One or more items between commas; line ends may follow a comma. -/
def commaSeparated {α : Type} (item : Parse α) : Parse (List α) := do
  let first ← item
  let others ← collect do
    if ← check (.mark .comma) then
      let _ ← advanceLines
      return some (← item)
    else return none
  return first :: others

/-- Counts a level of nesting while `body` is read, and refuses a level beyond the limit. -/
def nested {α : Type} (limit : Option Nat) (body : Parse α) : Parse α := do
  modify fun r => { r with depth := r.depth + 1 }
  if limit.any (· < (← get).depth) then refuse .nestedTooDeeply
  let a ← body
  modify fun r => { r with depth := r.depth - 1 }
  return a

/-- Marks the place as inside a subroutine while `body` is read. -/
def inSubroutine {α : Type} (body : Parse α) : Parse α := do
  let enclosing := (← get).inSubroutine
  modify fun r => { r with inSubroutine := true }
  let a ← body
  modify fun r => { r with inSubroutine := enclosing }
  return a

end Parse
end AresSyntax
