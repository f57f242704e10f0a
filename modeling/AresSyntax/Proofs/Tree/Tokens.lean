import AresSyntax.Proofs.Grammar.Exactness

/-!
The tokens of a text in the tree it is parsed to.

* `Tree.tokens`: the tokens of a tree, in the order of the text;
* `Kind.isKept`: the kinds of token that a tree has a node for;
* `parse_keeps_tokens`: a tree has each of these tokens once, and they stand in order.
-/
namespace AresSyntax

/-- The tokens of a node between or before those of its children. An operator stands behind its
first operand, a label stands for no token, and a negation was a minus sign. -/
def Token.within (t : Token) (parts : List (List Token)) : List Token :=
  match t.kind, parts with
  | .binary _, left :: others | .assign _, left :: others => left ++ t :: others.flatten
  | .label _, parts => parts.flatten
  | .negate, parts => { t with kind := .binary .minus } :: parts.flatten
  | _, parts => t :: parts.flatten

namespace Tree

mutual

/-- The tokens of a tree in the order of the text. -/
def tokens : Tree → List Token
  | node t cs => t.within (tokensEach cs)

/-- The tokens of several trees, for each by themselves. -/
def tokensEach : List Tree → List (List Token)
  | [] => []
  | c :: cs => c.tokens :: tokensEach cs

end

/-- The tokens of several trees, one tree after the other. -/
def tokensAll (cs : List Tree) : List Token := (tokensEach cs).flatten

@[simp] theorem tokensAll_nil : tokensAll [] = [] := rfl

@[simp] theorem tokensAll_cons (c : Tree) (cs : List Tree) :
    tokensAll (c :: cs) = c.tokens ++ tokensAll cs := rfl

@[simp] theorem tokens_label (l : Label) (location : Location) (cs : List Tree) :
    (node (l.token location) cs).tokens = tokensAll cs := rfl

theorem tokens_word {t : Token} {k : Keyword} (h : t.kind = .keyword k) (cs : List Tree) :
    (node t cs).tokens = t :: tokensAll cs := by
  simp only [tokens, Token.within, h]
  rfl

theorem tokens_mark {t : Token} {m : Mark} (h : t.kind = .mark m) (cs : List Tree) :
    (node t cs).tokens = t :: tokensAll cs := by
  simp only [tokens, Token.within, h]
  rfl

theorem tokens_leaf {t : Token} {l : Literal} (h : t.kind = .literal l) :
    (leaf t).tokens = [t] := by
  simp only [leaf, tokens, Token.within, h]
  rfl

theorem tokens_binary {t : Token} {op : BinaryOp} (h : t.kind = .binary op) (left right : Tree) :
    (node t [left, right]).tokens = left.tokens ++ t :: right.tokens := by
  simp [tokens, tokensEach, Token.within, h]

theorem tokens_assign {t : Token} {op : AssignOp} (h : t.kind = .assign op) (left right : Tree) :
    (node t [left, right]).tokens = left.tokens ++ t :: right.tokens := by
  simp [tokens, tokensEach, Token.within, h]

/-- A negation has the minus sign that it was. -/
theorem tokens_negate {t : Token} (h : t.kind = .binary .minus) (cs : List Tree) :
    (node { t with kind := .negate } cs).tokens = t :: tokensAll cs := by
  obtain ⟨kind, text, value, location⟩ := t
  cases h
  rfl

end Tree

open AresSyntax.Tree

/-- Holds for the kinds of token that have a node. The others are brackets, separators, line ends,
the end of the text, and the words that a construct has besides its first one, with the one before
a subroutine. -/
def Kind.isKept : Kind → Bool
  | mark .openParen | mark .closeParen | mark .openBracket | mark .closeBracket
  | mark .openBrace | mark .closeBrace | mark .comma | mark .semicolon | mark .arrow
  | mark .newline | keyword .defWord | keyword .elifWord | keyword .elseWord | keyword .inWord
  | endOfText => false
  | _ => true

/-- The tokens that have a node. -/
def kept (ts : List Token) : List Token := ts.filter (·.kind.isKept)

theorem kept_cons {t : Token} {k : Kind} (h : t.kind = k) (ts : List Token) :
    kept (t :: ts) = if k.isKept then t :: kept ts else kept ts := by
  rw [kept, List.filter_cons, h]
  rfl

theorem Newlines.kept_eq {ts rest : List Token} (h : Newlines ts rest) : kept ts = kept rest := by
  induction h with
  | none => rfl
  | next newline _ ih => rw [kept_cons newline, ← ih]; rfl

theorem Separator.kept_eq {ts rest : List Token} (h : Separator ts rest) :
    kept ts = kept rest := by
  cases h with
  | semicolon sign others => rw [kept_cons sign, ← others.kept_eq]; rfl
  | newline sign others => rw [kept_cons sign, ← others.kept_eq]; rfl

variable {limit : Option Nat} {p : Phrase} {c : Context} {ts rest : List Token} {us : List Tree}

/-- Behind the tokens of a phrase's trees stand those of the rest. -/
theorem Derives.kept_eq (h : Derives limit p c ts rest us) :
    kept ts = tokensAll us ++ kept rest := by
  induction h with
  | noStatement | noClause | noOtherwise | noPair | emptyList => rfl
  | lastStatement _ inner | lastItem _ inner | expression _ _ inner | plain _ inner
  | tighter _ inner | tightest _ inner | unsigned _ inner | untrailed _ inner
  | lastPair _ inner | someItems _ inner | value _ inner => exact inner
  | nextStatement _ separator _ first others =>
    simp [first, separator.kept_eq, others]
  | nextPair _ comma lines _ first others | nextItem _ comma lines _ first others =>
    simp [first, kept_cons comma, Kind.isKept, lines.kept_eq, others]
  | nextClause start _ _ _ condition body others =>
    simp [kept_cons start, Kind.isKept, condition, body, others]
  | otherwise start _ body => simp [kept_cons start, Kind.isKept, body]
  | declaration start ident _ _ params body =>
    simp [kept_cons start, kept_cons ident, Kind.isKept, params, body, tokens_leaf ident]
  | conditional start _ _ _ _ condition body further last =>
    simp [kept_cons start, Kind.isKept, condition, body, further, last, tokens_word start]
  | loop start _ _ condition body =>
    obtain start | start := start <;>
      simp [kept_cons start, Kind.isKept, condition, body, tokens_word start]
  | iteration start ident inWord _ _ range body =>
    simp [kept_cons start, kept_cons ident, kept_cons inWord, Kind.isKept, range, body,
      tokens_word start, tokens_leaf ident]
  | command start _ value =>
    obtain start | start := start <;>
      simp [kept_cons start, Kind.isKept, value, tokens_word start]
  | leave _ start => simp [kept_cons start, Kind.isKept, leaf, tokens_word start]
  | leaveWith _ start _ value => simp [kept_cons start, Kind.isKept, value, tokens_word start]
  | block before opening lines _ _ closing inner =>
    simp [before.kept_eq, kept_cons opening, lines.kept_eq, inner, kept_cons closing, Kind.isKept]
  | parameters opening before _ behind closing names =>
    simp [kept_cons opening, before.kept_eq, names, behind.kept_eq, kept_cons closing, Kind.isKept]
  | name ident => simp [kept_cons ident, Kind.isKept, tokens_leaf ident]
  | literal literal => simp [kept_cons literal, Kind.isKept, tokens_leaf literal]
  | assign _ _ sign lines _ target value =>
    simp [target, kept_cons sign, Kind.isKept, lines.kept_eq, value, tokens_assign sign]
  | fold _ sign _ lines _ left right =>
    simp [left, kept_cons sign, Kind.isKept, lines.kept_eq, right, tokens_binary sign]
  | negation sign lines _ inner =>
    simp [kept_cons sign, Kind.isKept, lines.kept_eq, inner, tokens_negate sign]
  | signed sign lines _ inner =>
    obtain sign | sign := sign <;>
      simp [kept_cons sign, Kind.isKept, lines.kept_eq, inner, tokens_mark sign]
  | subscript _ opening before _ behind closing base index =>
    simp [base, kept_cons opening, before.kept_eq, index, behind.kept_eq, kept_cons closing,
      Kind.isKept]
  | call _ opening before _ behind closing callee arguments =>
    simp [callee, kept_cons opening, before.kept_eq, arguments, behind.kept_eq, kept_cons closing,
      Kind.isKept]
  | array opening before _ behind closing inner | hash opening before _ behind closing inner
  | group opening before _ behind closing inner =>
    simp [kept_cons opening, before.kept_eq, inner, behind.kept_eq, kept_cons closing, Kind.isKept]
  | subroutine start _ _ params body => simp [kept_cons start, Kind.isKept, params, body]
  | pair _ arrow lines _ key value =>
    simp [key, kept_cons arrow, Kind.isKept, lines.kept_eq, value]

theorem DerivesProgram.kept_eq {t : Tree} (h : DerivesProgram limit ts t) :
    t.tokens = kept ts := by
  cases h with
  | intro lines inner ending =>
    have nothing : kept [] = [] := rfl
    simp [lines.kept_eq, inner.kept_eq, kept_cons ending, Kind.isKept, nothing]

/-- No token of a text is lost in its tree, stands in it twice, or stands at another place, but for
those kinds that no tree has. -/
theorem parse_keeps_tokens {limits : Limits} {text file : String} {t : Tree}
    (h : parse limits text file = .ok t) :
    ∃ ts, tokenize text file = .ok ts ∧ t.tokens = kept ts := by
  obtain ⟨ts, read, derived⟩ := parse_derives h
  exact ⟨ts, read, derived.kept_eq⟩

theorem parse_keeps_tokens_clauses :
    ∃ t ts, parse .standard "if a - -b { } elif c { [d] }" "f.ares" = .ok t ∧
      t.render = "(BLOCK (if (- a (- b)) BLOCK (ELIF c (BLOCK (ARRAY_DECL d)))))" ∧
      tokenize "if a - -b { } elif c { [d] }" "f.ares" = .ok ts ∧ t.tokens = kept ts := by
  have shown : (parse .standard "if a - -b { } elif c { [d] }" "f.ares").toOption.map
      Tree.render = some "(BLOCK (if (- a (- b)) BLOCK (ELIF c (BLOCK (ARRAY_DECL d)))))" := by
    decide +kernel
  obtain ⟨t, found, render⟩ := exists_tree_of_render shown
  obtain ⟨ts, read, same⟩ := parse_keeps_tokens found
  exact ⟨t, ts, found, render, read, same⟩

end AresSyntax
