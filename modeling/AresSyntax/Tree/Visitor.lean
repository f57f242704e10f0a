import AresSyntax.Tree.Basic

/-!
Visits to a tree. A visitor has handlers for the kinds of node that it is made for; a node of any
other kind is passed over on the way to its children.

Main definitions:
* `Handlers`: what a visitor does at nodes, by their kinds;
* `Tree.visit`, `Tree.visitEach`: the visit to a tree, and to several trees in a row;
* `Visitor`: the visitors that record the nodes of chosen kinds;
* `Visitor.visit`, `Visitor.answer?`: the recorded nodes, and what the visit of a node returns.
-/
namespace AresSyntax

/-- What is done at nodes of a kind. It is given the node and the visit to its children, and does
this visit where it wants to go on below the node. -/
abbrev Handler (m : Type → Type) (α : Type) : Type := Tree → m Unit → m α

/-- The handlers of a visitor. -/
abbrev Handlers (m : Type → Type) (α : Type) : Type := Kind → Option (Handler m α)

namespace Tree

variable {m : Type → Type} [Monad m] {α : Type}

mutual

/-- Does what the handler for the kind of the node says and returns its value. Without a handler
the children are visited, and there is no value. -/
def visit (handlers : Handlers m α) : Tree → m (Option α)
  | .node t cs =>
    match handlers t.kind with
    | some handle => do return some (← handle (.node t cs) (visitEach handlers cs))
    | none => do
      visitEach handlers cs
      return none

/-- Visits one tree after the other. -/
def visitEach (handlers : Handlers m α) : List Tree → m Unit
  | [] => return ()
  | c :: cs => do
    let _ ← visit handlers c
    visitEach handlers cs

end

end Tree

/-- The kinds that a visit records: below those of `descends` it goes on, below those of `stops`
it does not. A kind of both stops. -/
structure Visitor where
  descends : Kind → Bool
  stops : Kind → Bool

namespace Visitor

/-- Holds for the kinds that are recorded. -/
def records (v : Visitor) (k : Kind) : Bool := v.descends k || v.stops k

/-- Records a node behind those that were recorded before it. -/
def record (t : Tree) : StateM (List Tree) Unit := modify (· ++ [t])

/-- The handlers that record nodes, each with its own value to return. -/
def handlers {α : Type} (v : Visitor) (value : Tree → α) : Handlers (StateM (List Tree)) α :=
  fun k =>
    if v.stops k then
      some fun t _ => do
        record t
        return value t
    else if v.descends k then
      some fun t below => do
        record t
        below
        return value t
    else none

/-- The nodes that a visit records, in the order of the visit. -/
def visit (v : Visitor) (t : Tree) : List Tree := ((t.visit (v.handlers Tree.text)).run []).2

/-- The nodes that visits to several trees record. -/
def visitAll (v : Visitor) (ts : List Tree) : List Tree :=
  ((Tree.visitEach (v.handlers Tree.text) ts).run []).2

/-- What a visit returns: the text of a recorded node, and nothing for another one. -/
def answer? (v : Visitor) (t : Tree) : Option String := ((t.visit (v.handlers Tree.text)).run []).1

end Visitor
end AresSyntax
