import AresSyntax.Proofs.Program.Alike
import AresSyntax.Proofs.Tree.Spelled

/-!
Lexemes that are a phrase of the grammar, whatever stands behind them.

* `Whole`: such lexemes, with the trees of the phrase;
* `Whole.binary`, `Whole.assign`, `Whole.block` and others: one for each construct;
* `Whole.list`, `Whole.pairs`, `Whole.statements`: constructs in a row;
* `Whole.program`, `parse_of_placed`: whole programs, and their texts.
-/
namespace AresSyntax

/-- The label of a node is known by its place. -/
theorem Token.Standard.recast_gather {t : Token} (h : t.Standard) {l : Label}
    (kind : t.kind = .label l) (location : Location) :
    t.recast (.gather location) = l.token location := by
  simp only [Standard, kind] at h
  simp [Token.recast, Recast.gather, Label.token, kind, h]

theorem Token.Standard.recast_negation {t : Token} (h : t.Standard) (kind : t.kind = .negate)
    (location : Location) :
    t.recast (.gather location) = { Lexeme.minus.token location with kind := .negate } := by
  simp only [Standard, kind] at h
  rw [Token.recast_gather]
  simp [Lexeme.token, Token.lexeme, Lexeme.minus, kind, h]

/-- Holds for lexemes that are, at the place `c`, a phrase `p` with the trees `us`, whatever stands
behind them. -/
def Whole (limit : Option Nat) (location : Location) (p : Phrase) (c : Context)
    (ls : List Lexeme) (us : List Tree) : Prop :=
  ∀ rest, StartsAt location rest → Derives limit p c (placed location ls ++ rest) rest us

theorem Context.within_none (c : Context) : c.Within none := by
  simp [Within]

section
open Lexeme

variable {limit : Option Nat} {parens : Bool} {location : Location} {c : Context}
  {ls ms ns : List Lexeme} {l e b : Tree} {t : Token} {us : List Tree}

namespace Whole

/-- What stands in parentheses is an operand of any operator, and a level of nesting. -/
theorem groupWithin (within : c.deeper.Within limit)
    (inner : Whole limit location .assignment c.deeper ls [e]) :
    Whole limit location .atom c (grouped ls) [e] := by
  intro rest _
  have inside := inner _ (startsAt_cons location (ofMark .closeParen) rest)
  simpa [grouped, enclosed] using Derives.group rfl .none (.expression within inside) .none rfl

theorem group (inner : Whole none location .assignment c.deeper ls [e]) :
    Whole none location .atom c (grouped ls) [e] :=
  groupWithin c.deeper.within_none inner

theorem level {k : Nat} (h : Whole limit location .atom c ls [e])
    (hk : k ≤ Precedence.unary.rank) : Whole limit location (.level k) c ls [e] :=
  fun rest behind => (Derives.tightest (.unsigned (.untrailed (h rest behind)))).looser hk

theorem atom (h : Whole limit location .atom c ls [e]) :
    Whole limit location .assignment c ls [e] :=
  fun rest behind => .plain (h.level (by decide) rest behind)

theorem literal {k : Literal} (kind : t.kind = .literal k) :
    Whole limit location .atom c [t.lexeme] [.leaf (t.lexeme.token location)] :=
  fun _ _ => .literal kind

theorem binary {op : BinaryOp} (sign : t.kind = .binary op)
    (left : Whole none location .assignment c.deeper ls [l])
    (right : Whole none location .assignment c.deeper ms [e]) :
    Whole none location .assignment c (grouped ls ++ t.lexeme :: grouped ms)
      [.node (t.lexeme.token location) [l, e]] := by
  intro rest behind
  obtain ⟨loose, tight⟩ := op.rank_bounds
  have first := left.group.level (Nat.le_of_lt tight) _
    (startsAt_cons location t.lexeme (placed location (grouped ms) ++ rest))
  have second := right.group.level (Nat.succ_le_of_lt tight) rest behind
  simpa using Derives.plain ((Derives.fold first sign rfl .none second).looser loose)

/-- The value of an assignment, in parentheses or without any. -/
theorem groupedIf (parens : Bool)
    (h : ∀ d : Context, d.inSubroutine = c.inSubroutine →
      Whole none location .assignment d ls [e]) :
    Whole none location .assignment c (groupedIf parens ls) [e] := by
  cases parens with
  | true => exact (h c.deeper rfl).group.atom
  | false => exact h c rfl

theorem assign {op : AssignOp} (sign : t.kind = .assign op)
    (assignable : l.kind = .literal .ident ∨ l.kind = .label .subscript)
    (within : c.deeper.Within limit) (target : Whole limit location .assignment c.deeper ls [l])
    (value : Whole limit location .assignment c ms [e]) :
    Whole limit location .assignment c (grouped ls ++ t.lexeme :: ms)
      [.node (t.lexeme.token location) [l, e]] := by
  intro rest behind
  have loose : Precedence.range.rank ≤ Precedence.unary.rank := by decide
  have first := (groupWithin within target).level loose _
    (startsAt_cons location t.lexeme (placed location ms ++ rest))
  simpa using Derives.assign first assignable sign .none (value rest behind)

theorem operand (h : Whole none location .operand c ls [e]) :
    Whole none location .assignment c ls [e] :=
  fun rest behind => .plain ((Derives.tightest (h rest behind)).looser (by decide))

theorem negation (inner : Whole none location .assignment c.deeper ls [e]) :
    Whole none location .assignment c (minus :: grouped ls)
      [.node { minus.token location with kind := .negate } [e]] :=
  operand fun rest behind =>
    .negation rfl .none (.unsigned (.untrailed (inner.group rest behind)))

theorem signed (sign : t.kind = .mark .bang ∨ t.kind = .mark .tilde)
    (inner : Whole none location .assignment c.deeper ls [e]) :
    Whole none location .assignment c (t.lexeme :: grouped ls)
      [.node (t.lexeme.token location) [e]] :=
  operand fun rest behind =>
    .signed sign .none (.unsigned (.untrailed (inner.group rest behind)))

theorem trailed (h : Whole none location .trailed c ls [e]) :
    Whole none location .assignment c ls [e] :=
  operand fun rest behind => .unsigned (h rest behind)

theorem subscript (base : Whole none location .assignment c.deeper ls [l])
    (index : Whole none location .assignment c.deeper ms [e]) :
    Whole none location .assignment c (grouped ls ++ enclosed .openBracket ms .closeBracket)
      [.node (Label.subscript.token location) [l, e]] := by
  refine trailed fun rest behind => ?_
  have inside := index _ (startsAt_cons location (ofMark .closeBracket) rest)
  have first := base.group _ (startsAt_cons location (ofMark .openBracket)
    (placed location ms ++ (ofMark .closeBracket).token location :: rest))
  simpa [enclosed] using Derives.subscript (.untrailed first) rfl .none
    (.expression c.deeper.within_none inside) .none rfl

theorem call (callee : Whole none location .assignment c.deeper ls [l])
    (arguments : Whole none location (.list .expression) c ms us) :
    Whole none location .assignment c (grouped ls ++ enclosed .openParen ms .closeParen)
      [.node (Label.call.token location) (l :: us)] := by
  refine trailed fun rest behind => ?_
  have inside := arguments _ (startsAt_cons location (ofMark .closeParen) rest)
  have first := callee.group _ (startsAt_cons location (ofMark .openParen)
    (placed location ms ++ (ofMark .closeParen).token location :: rest))
  simpa [enclosed] using Derives.call (.untrailed first) rfl .none inside .none rfl

theorem array (elements : Whole none location (.list .expression) c ls us) :
    Whole none location .assignment c (enclosed .openBracket ls .closeBracket)
      [.node (Label.arrayDecl.token location) us] := by
  refine atom fun rest behind => ?_
  have inside := elements _ (startsAt_cons location (ofMark .closeBracket) rest)
  simpa [enclosed] using
    Derives.array (o := (ofMark .openBracket).token location) rfl .none inside .none rfl

theorem hash (elements : Whole none location .pairs c ls us) :
    Whole none location .assignment c (enclosed .openBrace ls .closeBrace)
      [.node (Label.hashDecl.token location) us] := by
  refine atom fun rest behind => ?_
  have inside := elements _ (startsAt_cons location (ofMark .closeBrace) rest)
  simpa [enclosed] using
    Derives.hash (o := (ofMark .openBrace).token location) rfl .none inside .none rfl

theorem parameters (names : Whole none location (.list .name) c ls us) :
    Whole none location .parameters c (enclosed .openParen ls .closeParen)
      [.node (Label.subParams.token location) us] := by
  intro rest behind
  have inside := names _ (startsAt_cons location (ofMark .closeParen) rest)
  simpa [enclosed] using
    Derives.parameters (o := (ofMark .openParen).token location) rfl .none inside .none rfl

theorem block (lines : Whole none location .statements c.deeper ls us) :
    Whole none location .block c (enclosed .openBrace ls .closeBrace)
      [.node (Label.block.token location) us] := by
  intro rest behind
  have inside := lines _ (startsAt_cons location (ofMark .closeBrace) rest)
  simpa [enclosed] using Derives.block (o := (ofMark .openBrace).token location) .none rfl .none
    c.deeper.within_none inside rfl

theorem subroutine (params : Whole none location .parameters c ls [l])
    (body : Whole none location .block c.body ms [b]) :
    Whole none location .assignment c (ofKeyword .defWord :: (ls ++ ms))
      [.node (Label.subLiteral.token location) [l, b]] := by
  refine atom fun rest behind => ?_
  have first := params _ (behind.append ms)
  simpa using Derives.subroutine (d := (ofKeyword .defWord).token location) rfl first
    (body rest behind)

/-- The pair is where its key starts. -/
theorem pair (key : Whole none location .assignment c.deeper ls [l])
    (value : Whole none location .assignment c.deeper ms [e]) :
    Whole none location .pair c (ls ++ ofMark .arrow :: ms)
      [.node (Label.hashElem.token location) [l, e]] := by
  intro rest behind
  have arrow := startsAt_cons location (ofMark .arrow) (placed location ms ++ rest)
  have first := key _ arrow
  obtain ⟨x, ts, start, place⟩ := arrow.append ls
  have second := Derives.expression c.deeper.within_none (value rest behind)
  rw [start] at first
  have whole := Derives.pair (.expression c.deeper.within_none first) rfl .none second
  rw [← start, place] at whole
  simpa using whole

theorem declaration (ident : t.kind = .literal .ident)
    (params : Whole none location .parameters c ls [l])
    (body : Whole none location .block c.body ms [b]) :
    Whole none location .statement c (ofKeyword .defWord :: ([t.lexeme] ++ ls ++ ms))
      [.node (Label.subDecl.token location) [.leaf (t.lexeme.token location), l, b]] := by
  intro rest behind
  have first := params _ (behind.append ms)
  simpa using Derives.declaration (d := (ofKeyword .defWord).token location)
    (n := t.lexeme.token location) rfl ident first (body rest behind)

theorem condition (h : Whole none location .assignment c.deeper.deeper ls [e]) :
    Whole none location .expression c (grouped ls) [e] :=
  fun rest behind => .expression c.deeper.within_none (h.group.atom rest behind)

theorem clause (h : Whole none location .assignment c.deeper.deeper ls [e])
    (body : Whole none location .block c ms [b]) (others : Whole none location .clauses c ns us) :
    Whole none location .clauses c (ofKeyword .elifWord :: (grouped ls ++ ms) ++ ns)
      (e :: b :: us) := by
  intro rest behind
  have last := behind.append ns
  simpa using Derives.nextClause rfl (h.condition _ (last.append ms)) (body _ last)
    (others rest behind)

theorem loop (start : t.kind = .keyword .whileWord ∨ t.kind = .keyword .untilWord)
    (h : Whole none location .assignment c.deeper.deeper ls [e])
    (body : Whole none location .block c ms [b]) :
    Whole none location .statement c (t.lexeme :: (grouped ls ++ ms))
      [.node (t.lexeme.token location) [e, b]] := by
  intro rest behind
  simpa using Derives.loop (w := t.lexeme.token location) start (h.condition _ (behind.append ms))
    (body rest behind)

theorem iteration {n : Token} (start : t.kind = .keyword .forWord)
    (ident : n.kind = .literal .ident) (range : Whole none location .assignment c.deeper ls [e])
    (body : Whole none location .block c ms [b]) :
    Whole none location .statement c (t.lexeme :: ([n.lexeme] ++ ofKeyword .inWord :: ls ++ ms))
      [.node (t.lexeme.token location) [.leaf (n.lexeme.token location), e, b]] := by
  intro rest behind
  have first := range _ (behind.append ms)
  simpa using Derives.iteration (w := t.lexeme.token location) (n := n.lexeme.token location)
    (i := (ofKeyword .inWord).token location) start ident rfl
    (.expression c.deeper.within_none first) (body rest behind)

/-- The clauses are where the next token is, whether there are any or not. -/
theorem conditional {os : List Tree} {xs : List Lexeme} (start : t.kind = .keyword .ifWord)
    (h : Whole none location .assignment c.deeper.deeper ls [e])
    (body : Whole none location .block c ms [b]) (further : Whole none location .clauses c ns us)
    (last : Whole none location .otherwise c xs os) :
    Whole none location .statement c (t.lexeme :: (grouped ls ++ ms ++ ns ++ xs))
      [.node (t.lexeme.token location)
        (e :: b :: .node (Label.elifClauses.token location) us :: os)] := by
  intro rest behind
  have behind₁ := behind.append xs
  have behind₂ := behind₁.append ns
  have first := h.condition _ (behind₂.append ms)
  have second := body _ behind₂
  have third := further _ behind₁
  obtain ⟨x, ts, next, place⟩ := behind₂
  rw [next] at first second third
  have whole := Derives.conditional (w := t.lexeme.token location) start first second third
    (last rest behind)
  rw [← next] at whole
  rw [place] at whole
  simpa using whole

theorem value (h : Whole none location .assignment c.deeper ls [e]) :
    Whole none location .statement c ls [e] :=
  fun rest behind => .value (.expression c.deeper.within_none (h rest behind))

theorem command (start : t.kind = .keyword .importWord ∨ t.kind = .keyword .debugWord)
    (h : Whole none location .assignment c.deeper ls [e]) :
    Whole none location .statement c (t.lexeme :: ls) [.node (t.lexeme.token location) [e]] :=
  fun rest behind => .command start (.expression c.deeper.within_none (h rest behind))

theorem leave (inside : c.inSubroutine = true) (start : t.kind = .keyword .returnWord) :
    Whole none location .statement c [t.lexeme] [.leaf (t.lexeme.token location)] :=
  fun _ _ => .leave inside start

theorem leaveWith (inside : c.inSubroutine = true) (start : t.kind = .keyword .returnWord)
    (h : Whole none location .assignment c.deeper ls [e]) :
    Whole none location .statement c (t.lexeme :: ls) [.node (t.lexeme.token location) [e]] :=
  fun rest behind => .leaveWith inside start (.expression c.deeper.within_none (h rest behind))

/-- What is shown of trees with a sign between any two of them, if it is shown of the last tree and
of each tree with others behind it. -/
theorem separated_induction {φ : Recast} {sign : Mark} {motive : List Lexeme → List Tree → Prop}
    {es : List Tree} (some : es ≠ []) (last : ∀ e ∈ es, motive (e.spelled parens) [recast φ e])
    (next : ∀ e ∈ es, ∀ ls us, motive ls us →
      motive (e.spelled parens ++ ofMark sign :: ls) (recast φ e :: us)) :
    motive (separated sign (es.map (Tree.spelled parens))) (recast φ es) := by
  induction es with
  | nil => exact absurd rfl some
  | cons e es ih =>
    cases es with
    | nil =>
      rw [separated, List.map_singleton, List.intercalate_singleton]
      exact last e (.head _)
    | cons e' es =>
      have others := ih (List.cons_ne_nil _ _) (fun u hu => last u (.tail _ hu))
        (fun u hu => next u (.tail _ hu))
      rw [separated, List.map_cons, List.map_cons, List.intercalate_cons_cons, List.append_assoc]
      exact next e (.head _) _ _ others

theorem list {p : Phrase} {es : List Tree}
    (h : ∀ e ∈ es, Whole none location p c (e.spelled parens) [recast (.gather location) e]) :
    Whole none location (.list p) c (separated .comma (es.map (Tree.spelled parens)))
      (recast (.gather location) es) := by
  cases es with
  | nil => exact fun _ _ => .emptyList
  | cons e es =>
    refine fun rest behind => .someItems (separated_induction (List.cons_ne_nil e es)
      (motive := Whole none location (.items p) c) ?_ ?_ rest behind)
    · exact fun e he rest behind => .lastItem (h e he rest behind)
    · intro e he ls us others rest behind
      have first := h e he _ (startsAt_cons location (ofMark .comma) (placed location ls ++ rest))
      simpa using Derives.nextItem first rfl .none (others rest behind)

theorem pairs {es : List Tree}
    (h : ∀ e ∈ es, Whole none location .pair c (e.spelled parens) [recast (.gather location) e]) :
    Whole none location .pairs c (separated .comma (es.map (Tree.spelled parens)))
      (recast (.gather location) es) := by
  cases es with
  | nil => exact fun _ _ => .noPair
  | cons e es =>
    refine separated_induction (List.cons_ne_nil e es) ?_ ?_
    · exact fun e he rest behind => .lastPair (h e he rest behind)
    · intro e he ls us others rest behind
      have first := h e he _ (startsAt_cons location (ofMark .comma) (placed location ls ++ rest))
      simpa using Derives.nextPair first rfl .none (others rest behind)

theorem statements {es : List Tree}
    (h : ∀ e ∈ es,
      Whole none location .statement c (e.spelled parens) [recast (.gather location) e]) :
    Whole none location .statements c (separated .newline (es.map (Tree.spelled parens)))
      (recast (.gather location) es) := by
  cases es with
  | nil => exact fun _ _ => .noStatement
  | cons e es =>
    refine separated_induction (List.cons_ne_nil e es) ?_ ?_
    · exact fun e he rest behind => .lastStatement (h e he rest behind)
    · intro e he ls us others rest behind
      have first := h e he _ (startsAt_cons location (ofMark .newline) (placed location ls ++ rest))
      simpa using Derives.nextStatement first (.newline rfl .none) (others rest behind)

/-- The statements up to the end of a text are a program, whatever they start with. -/
theorem program (lines : Whole limit location .statements .top ls us) :
    DerivesProgram limit (placed location ls ++ [.atEnd location])
      (.node (Label.block.token location) us) := by
  have behind : StartsAt location [.atEnd location] := ⟨_, _, rfl, rfl⟩
  have inner := lines _ behind
  obtain ⟨x, ts, start, place⟩ := behind.append ls
  rw [start] at inner
  have whole := DerivesProgram.intro .none inner rfl
  rwa [← start, place] at whole

end Whole
end

/-- The text of a program is parsed if a tree is derived from what it is written with, and the tree
that is found is this one up to the places of its tokens. -/
theorem parse_of_placed {limit : Option Nat} {parens : Bool} {location : Location} {t v : Tree}
    (standard : ∀ n ∈ t.walk, n.token.Standard)
    (h : DerivesProgram limit (placed location (t.lines parens) ++ [.atEnd location]) v)
    (file : String) : ∃ u, parse ⟨limit, none⟩ (t.spelling parens) file = .ok u ∧
      recast (.gather location) u = v := by
  obtain ⟨ts, place, read, lexemes⟩ := Tree.tokenize_spelling parens standard file
  refine parse_of_recast read ?_
  rw [recast_append, recast_gather, lexemes]
  exact h

end AresSyntax
