import AresSyntax.Token.Precedence
import AresSyntax.Tree.Basic

/-!
The grammar of programs, as a relation between tokens and trees. Nothing here reads tokens one
after the other: which phrase some tokens are, and where it ends, is left open, and a phrase may
be derived in any order of its parts.

* `Newlines`, `Separator`: what stands between statements;
* `Phrase`: the constructs of the language;
* `Derives`: some tokens are a phrase with these trees, and others stand behind it;
* `DerivesProgram`: all tokens of a text are a program with this tree.
-/
namespace AresSyntax

/-- The place of a construct among others: the levels of nesting around it, and whether it is in
a subroutine. -/
structure Context where
  depth : Nat
  inSubroutine : Bool
  deriving DecidableEq, Repr

namespace Context

/-- The place of a whole program. -/
def top : Context := ⟨0, false⟩

/-- The place one level of nesting further in. -/
def deeper (c : Context) : Context := { c with depth := c.depth + 1 }

/-- The place in the body of a subroutine. -/
def body (c : Context) : Context := { c with inSubroutine := true }

/-- The levels around the place are not more than the limit, if there is one. -/
def Within (limit : Option Nat) (c : Context) : Prop := ∀ most ∈ limit, c.depth ≤ most

end Context

/-- Any number of line ends stand before `rest`. -/
inductive Newlines : List Token → List Token → Prop
  | none {rest : List Token} : Newlines rest rest
  | next {n : Token} {ts rest : List Token} (newline : n.kind = .mark .newline)
      (others : Newlines ts rest) : Newlines (n :: ts) rest

/-- What stands between two statements: a semicolon and any number of line ends, or at least one
line end. -/
inductive Separator : List Token → List Token → Prop
  | semicolon {s : Token} {ts rest : List Token} (semicolon : s.kind = .mark .semicolon)
      (others : Newlines ts rest) : Separator (s :: ts) rest
  | newline {n : Token} {ts rest : List Token} (newline : n.kind = .mark .newline)
      (others : Newlines ts rest) : Separator (n :: ts) rest

/-- The constructs of the language. A `level` holds the binary operators of one rank and above,
`items` are one or more phrases between commas, and a `list` may be empty. -/
inductive Phrase
  | statements | statement | block | clauses | otherwise
  | parameters | name
  | expression | assignment | level (rank : Nat) | operand | trailed | atom
  | pairs | pair
  | list (item : Phrase) | items (item : Phrase)
  deriving DecidableEq, Repr

/-- `Derives limit p c ts rest us`: at the place `c` the tokens `ts` are a phrase `p` with the trees
`us`, and `rest` behind it. No construct has more levels around it than `limit` allows. -/
inductive Derives (limit : Option Nat) :
    Phrase → Context → List Token → List Token → List Tree → Prop
  | noStatement {c : Context} {rest : List Token} : Derives limit .statements c rest rest []
  | lastStatement {c : Context} {ts rest : List Token} {u : Tree}
      (last : Derives limit .statement c ts rest [u]) : Derives limit .statements c ts rest [u]
  | nextStatement {c : Context} {ts ts₁ ts₂ rest : List Token} {u : Tree} {us : List Tree}
      (first : Derives limit .statement c ts ts₁ [u]) (separator : Separator ts₁ ts₂)
      (others : Derives limit .statements c ts₂ rest us) :
      Derives limit .statements c ts rest (u :: us)
  | declaration {c : Context} {ts ts₁ rest : List Token} {d n : Token} {ps b : Tree}
      (start : d.kind = .keyword .defWord) (ident : n.kind = .literal .ident)
      (params : Derives limit .parameters c ts ts₁ [ps])
      (body : Derives limit .block c.body ts₁ rest [b]) :
      Derives limit .statement c (d :: n :: ts) rest
        [.node (Label.subDecl.token d.location) [.leaf n, ps, b]]
  | conditional {c : Context} {ts ts₁ ts₂ ts₃ rest : List Token} {w x : Token} {e b : Tree}
      {cs os : List Tree} (start : w.kind = .keyword .ifWord)
      (condition : Derives limit .expression c ts ts₁ [e])
      (body : Derives limit .block c ts₁ (x :: ts₂) [b])
      (further : Derives limit .clauses c (x :: ts₂) ts₃ cs)
      (last : Derives limit .otherwise c ts₃ rest os) :
      Derives limit .statement c (w :: ts) rest
        [.node w (e :: b :: .node (Label.elifClauses.token x.location) cs :: os)]
  | loop {c : Context} {ts ts₁ rest : List Token} {w : Token} {e b : Tree}
      (start : w.kind = .keyword .whileWord ∨ w.kind = .keyword .untilWord)
      (condition : Derives limit .expression c ts ts₁ [e])
      (body : Derives limit .block c ts₁ rest [b]) :
      Derives limit .statement c (w :: ts) rest [.node w [e, b]]
  | iteration {c : Context} {ts ts₁ rest : List Token} {w n i : Token} {e b : Tree}
      (start : w.kind = .keyword .forWord) (ident : n.kind = .literal .ident)
      (inWord : i.kind = .keyword .inWord)
      (range : Derives limit .expression c ts ts₁ [e])
      (body : Derives limit .block c ts₁ rest [b]) :
      Derives limit .statement c (w :: n :: i :: ts) rest [.node w [.leaf n, e, b]]
  | command {c : Context} {ts rest : List Token} {w : Token} {e : Tree}
      (start : w.kind = .keyword .importWord ∨ w.kind = .keyword .debugWord)
      (value : Derives limit .expression c ts rest [e]) :
      Derives limit .statement c (w :: ts) rest [.node w [e]]
  | leave {c : Context} {rest : List Token} {w : Token} (inside : c.inSubroutine = true)
      (start : w.kind = .keyword .returnWord) :
      Derives limit .statement c (w :: rest) rest [.leaf w]
  | leaveWith {c : Context} {ts rest : List Token} {w : Token} {e : Tree}
      (inside : c.inSubroutine = true) (start : w.kind = .keyword .returnWord)
      (value : Derives limit .expression c ts rest [e]) :
      Derives limit .statement c (w :: ts) rest [.node w [e]]
  | value {c : Context} {ts rest : List Token} {e : Tree}
      (value : Derives limit .expression c ts rest [e]) : Derives limit .statement c ts rest [e]
  | noClause {c : Context} {rest : List Token} : Derives limit .clauses c rest rest []
  | nextClause {c : Context} {ts ts₁ ts₂ rest : List Token} {w : Token} {e b : Tree}
      {cs : List Tree} (start : w.kind = .keyword .elifWord)
      (condition : Derives limit .expression c ts ts₁ [e])
      (body : Derives limit .block c ts₁ ts₂ [b])
      (others : Derives limit .clauses c ts₂ rest cs) :
      Derives limit .clauses c (w :: ts) rest (e :: b :: cs)
  | noOtherwise {c : Context} {rest : List Token} : Derives limit .otherwise c rest rest []
  | otherwise {c : Context} {ts rest : List Token} {w : Token} {b : Tree}
      (start : w.kind = .keyword .elseWord) (body : Derives limit .block c ts rest [b]) :
      Derives limit .otherwise c (w :: ts) rest [b]
  | block {c : Context} {ts ts₁ ts₂ rest : List Token} {o e : Token} {us : List Tree}
      (before : Newlines ts (o :: ts₁)) (opening : o.kind = .mark .openBrace)
      (lines : Newlines ts₁ ts₂) (within : c.deeper.Within limit)
      (inner : Derives limit .statements c.deeper ts₂ (e :: rest) us)
      (closing : e.kind = .mark .closeBrace) :
      Derives limit .block c ts rest [.node (Label.block.token o.location) us]
  | parameters {c : Context} {ts ts₁ ts₂ rest : List Token} {o e : Token} {ns : List Tree}
      (opening : o.kind = .mark .openParen) (before : Newlines ts ts₁)
      (names : Derives limit (.list .name) c ts₁ ts₂ ns) (behind : Newlines ts₂ (e :: rest))
      (closing : e.kind = .mark .closeParen) :
      Derives limit .parameters c (o :: ts) rest [.node (Label.subParams.token o.location) ns]
  | name {c : Context} {rest : List Token} {n : Token} (ident : n.kind = .literal .ident) :
      Derives limit .name c (n :: rest) rest [.leaf n]
  | expression {c : Context} {ts rest : List Token} {e : Tree} (within : c.deeper.Within limit)
      (inner : Derives limit .assignment c.deeper ts rest [e]) :
      Derives limit .expression c ts rest [e]
  | plain {c : Context} {ts rest : List Token} {e : Tree}
      (value : Derives limit (.level Precedence.range.rank) c ts rest [e]) :
      Derives limit .assignment c ts rest [e]
  | assign {c : Context} {ts ts₁ ts₂ rest : List Token} {a : Token} {op : AssignOp} {l e : Tree}
      (target : Derives limit (.level Precedence.range.rank) c ts (a :: ts₁) [l])
      (assignable : l.kind = .literal .ident ∨ l.kind = .label .subscript)
      (sign : a.kind = .assign op) (lines : Newlines ts₁ ts₂)
      (value : Derives limit .assignment c ts₂ rest [e]) :
      Derives limit .assignment c ts rest [.node a [l, e]]
  | tighter {c : Context} {ts rest : List Token} {k : Nat} {e : Tree}
      (inner : Derives limit (.level (k + 1)) c ts rest [e]) :
      Derives limit (.level k) c ts rest [e]
  | fold {c : Context} {ts ts₁ ts₂ rest : List Token} {k : Nat} {o : Token} {op : BinaryOp}
      {l e : Tree} (left : Derives limit (.level k) c ts (o :: ts₁) [l])
      (sign : o.kind = .binary op) (rank : op.precedence.rank = k) (lines : Newlines ts₁ ts₂)
      (right : Derives limit (.level (k + 1)) c ts₂ rest [e]) :
      Derives limit (.level k) c ts rest [.node o [l, e]]
  | tightest {c : Context} {ts rest : List Token} {e : Tree}
      (inner : Derives limit .operand c ts rest [e]) :
      Derives limit (.level Precedence.unary.rank) c ts rest [e]
  | negation {c : Context} {ts ts₁ rest : List Token} {s : Token} {e : Tree}
      (sign : s.kind = .binary .minus) (lines : Newlines ts ts₁)
      (inner : Derives limit .operand c ts₁ rest [e]) :
      Derives limit .operand c (s :: ts) rest [.node { s with kind := .negate } [e]]
  | signed {c : Context} {ts ts₁ rest : List Token} {s : Token} {e : Tree}
      (sign : s.kind = .mark .bang ∨ s.kind = .mark .tilde) (lines : Newlines ts ts₁)
      (inner : Derives limit .operand c ts₁ rest [e]) :
      Derives limit .operand c (s :: ts) rest [.node s [e]]
  | unsigned {c : Context} {ts rest : List Token} {e : Tree}
      (inner : Derives limit .trailed c ts rest [e]) : Derives limit .operand c ts rest [e]
  | untrailed {c : Context} {ts rest : List Token} {e : Tree}
      (inner : Derives limit .atom c ts rest [e]) : Derives limit .trailed c ts rest [e]
  | subscript {c : Context} {ts ts₁ ts₂ ts₃ rest : List Token} {o x : Token} {l e : Tree}
      (base : Derives limit .trailed c ts (o :: ts₁) [l]) (opening : o.kind = .mark .openBracket)
      (before : Newlines ts₁ ts₂) (index : Derives limit .expression c ts₂ ts₃ [e])
      (behind : Newlines ts₃ (x :: rest)) (closing : x.kind = .mark .closeBracket) :
      Derives limit .trailed c ts rest [.node (Label.subscript.token o.location) [l, e]]
  | call {c : Context} {ts ts₁ ts₂ ts₃ rest : List Token} {o x : Token} {l : Tree}
      {es : List Tree} (callee : Derives limit .trailed c ts (o :: ts₁) [l])
      (opening : o.kind = .mark .openParen) (before : Newlines ts₁ ts₂)
      (arguments : Derives limit (.list .expression) c ts₂ ts₃ es)
      (behind : Newlines ts₃ (x :: rest)) (closing : x.kind = .mark .closeParen) :
      Derives limit .trailed c ts rest [.node (Label.call.token o.location) (l :: es)]
  | literal {c : Context} {rest : List Token} {t : Token} {l : Literal}
      (literal : t.kind = .literal l) : Derives limit .atom c (t :: rest) rest [.leaf t]
  | array {c : Context} {ts ts₁ ts₂ rest : List Token} {o x : Token} {es : List Tree}
      (opening : o.kind = .mark .openBracket) (before : Newlines ts ts₁)
      (elements : Derives limit (.list .expression) c ts₁ ts₂ es)
      (behind : Newlines ts₂ (x :: rest)) (closing : x.kind = .mark .closeBracket) :
      Derives limit .atom c (o :: ts) rest [.node (Label.arrayDecl.token o.location) es]
  | hash {c : Context} {ts ts₁ ts₂ rest : List Token} {o x : Token} {es : List Tree}
      (opening : o.kind = .mark .openBrace) (before : Newlines ts ts₁)
      (elements : Derives limit .pairs c ts₁ ts₂ es)
      (behind : Newlines ts₂ (x :: rest)) (closing : x.kind = .mark .closeBrace) :
      Derives limit .atom c (o :: ts) rest [.node (Label.hashDecl.token o.location) es]
  | group {c : Context} {ts ts₁ ts₂ rest : List Token} {o x : Token} {e : Tree}
      (opening : o.kind = .mark .openParen) (before : Newlines ts ts₁)
      (inner : Derives limit .expression c ts₁ ts₂ [e])
      (behind : Newlines ts₂ (x :: rest)) (closing : x.kind = .mark .closeParen) :
      Derives limit .atom c (o :: ts) rest [e]
  | subroutine {c : Context} {ts ts₁ rest : List Token} {d : Token} {ps b : Tree}
      (start : d.kind = .keyword .defWord) (params : Derives limit .parameters c ts ts₁ [ps])
      (body : Derives limit .block c.body ts₁ rest [b]) :
      Derives limit .atom c (d :: ts) rest [.node (Label.subLiteral.token d.location) [ps, b]]
  | noPair {c : Context} {rest : List Token} : Derives limit .pairs c rest rest []
  | lastPair {c : Context} {ts rest : List Token} {u : Tree}
      (last : Derives limit .pair c ts rest [u]) : Derives limit .pairs c ts rest [u]
  | nextPair {c : Context} {ts ts₁ ts₂ rest : List Token} {x : Token} {u : Tree} {us : List Tree}
      (first : Derives limit .pair c ts (x :: ts₁) [u]) (comma : x.kind = .mark .comma)
      (lines : Newlines ts₁ ts₂) (others : Derives limit .pairs c ts₂ rest us) :
      Derives limit .pairs c ts rest (u :: us)
  | pair {c : Context} {ts ts₁ ts₂ rest : List Token} {x a : Token} {k v : Tree}
      (key : Derives limit .expression c (x :: ts) (a :: ts₁) [k]) (arrow : a.kind = .mark .arrow)
      (lines : Newlines ts₁ ts₂) (value : Derives limit .expression c ts₂ rest [v]) :
      Derives limit .pair c (x :: ts) rest [.node (Label.hashElem.token x.location) [k, v]]
  | emptyList {p : Phrase} {c : Context} {rest : List Token} :
      Derives limit (.list p) c rest rest []
  | someItems {p : Phrase} {c : Context} {ts rest : List Token} {us : List Tree}
      (items : Derives limit (.items p) c ts rest us) : Derives limit (.list p) c ts rest us
  | lastItem {p : Phrase} {c : Context} {ts rest : List Token} {u : Tree}
      (last : Derives limit p c ts rest [u]) : Derives limit (.items p) c ts rest [u]
  | nextItem {p : Phrase} {c : Context} {ts ts₁ ts₂ rest : List Token} {x : Token} {u : Tree}
      {us : List Tree} (first : Derives limit p c ts (x :: ts₁) [u])
      (comma : x.kind = .mark .comma) (lines : Newlines ts₁ ts₂)
      (others : Derives limit (.items p) c ts₂ rest us) :
      Derives limit (.items p) c ts rest (u :: us)

/-- The tokens of a text are a program with this tree: statements at the top, with nothing behind
them but the end of the text. -/
inductive DerivesProgram (limit : Option Nat) : List Token → Tree → Prop
  | intro {ts ts₁ : List Token} {x e : Token} {us : List Tree}
      (lines : Newlines (x :: ts) ts₁) (inner : Derives limit .statements .top ts₁ [e] us)
      (ending : e.kind = .endOfText) :
      DerivesProgram limit (x :: ts) (.node (Label.block.token x.location) us)

end AresSyntax
