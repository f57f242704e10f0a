import AresSyntax.Position
import AresSyntax.Decimal.Shortest
import AresSyntax.Token.Kind

/-!
Tokens: a kind, the text it shows, the value of a literal and the place where it starts.

Main definitions:
* `Value`: what a literal stands for;
* `Token.render`, `Token.inspect`: a token in a listing, and with every field;
* `Label.token`: the token that labels a node of the tree.
-/
namespace AresSyntax

/-- The value of a literal. -/
inductive Value
  | string (s : String)
  | integer (n : Int)
  | float (x : Binary64)
  | bool (b : Bool)
  deriving DecidableEq, Repr

/-- Numbers are written positionally from `0.0001` up to, and not including, `10 ^ 16`. -/
def Value.layout : Decimal.Layout := ⟨-4, 16, 2⟩

def Value.inspect : Value → String
  | string s => Text.quoted s
  | integer n => toString n
  | float x => x.render layout
  | bool b => if b then "True" else "False"

/-- A token. Its text is the lexeme, but for strings, which show their contents, and labels, which
show their mnemonic. -/
structure Token where
  kind : Kind
  text : String
  value : Option Value
  location : Location
  deriving DecidableEq, Repr

namespace Token

/-- The value, if it says more than the text. -/
def distinctValue? (t : Token) : Option Value :=
  t.value.filter (· ≠ .string t.text)

/-- The form in listings: kind and text, and the value where it differs from the text. -/
def render (t : Token) : String :=
  let shown := match t.distinctValue? with
    | some v => " -> " ++ v.inspect
    | none => ""
  t.kind.name ++ "(" ++ Text.quoted t.text ++ shown ++ ")"

/-- The form that shows every field. -/
def inspect (t : Token) : String :=
  let value := match t.value with
    | some v => v.inspect
    | none => "None"
  "Token(" ++ t.kind.name ++ ", " ++ Text.quoted t.text ++ ", " ++ value ++ ", " ++
    t.location.inspect ++ ")"

end Token

/-- The token that labels a node, at the place where the construct starts. -/
def Label.token (l : Label) (location : Location) : Token :=
  ⟨.label l, l.mnemonic, none, location⟩

/-- The label token of a kind. Only labels have one: the node of a negation keeps the operator's
own token. -/
def Kind.labelToken? (location : Location) : Kind → Option Token
  | .label l => some (l.token location)
  | _ => none

end AresSyntax
