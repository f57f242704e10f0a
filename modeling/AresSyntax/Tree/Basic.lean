import AresSyntax.Token.Basic

/-!
Syntax trees. Every node is one token over its children, and the kind of the token alone says
what the node means: a plus sign over two children is a sum, a block label stands over statements.

Main definitions:
* `Tree.addChild`, `Tree.reroot`: a further child, and a new root above a tree;
* `Tree.walk`, `Tree.findAll`: all nodes in preorder, and those of one kind;
* `Tree.render`: the tree as nested lists of texts.
-/
namespace AresSyntax

/-- A token with the trees below it. -/
inductive Tree
  | node (token : Token) (children : List Tree)
  deriving Repr

namespace Tree

def token : Tree → Token
  | node t _ => t

def children : Tree → List Tree
  | node _ cs => cs

def kind (t : Tree) : Kind := t.token.kind

def text (t : Tree) : String := t.token.text

def leaf (t : Token) : Tree := node t []

def isLeaf (t : Tree) : Bool := t.children.isEmpty

/-- The tree with a further child behind the others. -/
def addChild (t child : Tree) : Tree := node t.token (t.children ++ [child])

/-- The tree `root` with this one as a further child before the others. -/
def reroot (t root : Tree) : Tree := node root.token (t :: root.children)

mutual

/-- The nodes of a tree, each as the tree below it, in preorder. -/
def walk : Tree → List Tree
  | node t cs => node t cs :: walkAll cs

/-- The nodes of several trees, one tree after the other. -/
def walkAll : List Tree → List Tree
  | [] => []
  | c :: cs => c.walk ++ walkAll cs

end

/-- The nodes of a kind, in preorder. -/
def findAll (k : Kind) (t : Tree) : List Tree := t.walk.filter (·.kind = k)

mutual

/-- A leaf is its text, any other node a list in parentheses that starts with its text. -/
def render : Tree → String
  | node t [] => t.text
  | node t (c :: cs) => "(" ++ t.text ++ renderEach (c :: cs) ++ ")"

/-- Several trees, each behind a blank. -/
def renderEach : List Tree → String
  | [] => ""
  | c :: cs => " " ++ c.render ++ renderEach cs

end

/-- The root alone, with the number of its children. -/
def inspect (t : Tree) : String :=
  "Node(" ++ t.kind.name ++ ", " ++ Text.quoted t.text ++ ", children=" ++
    toString t.children.length ++ ")"

end Tree
end AresSyntax
