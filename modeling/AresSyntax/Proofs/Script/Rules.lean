import AresSyntax.Grammar.Program
import AresSyntax.Proofs.Script.Story

/-!
The scripts of the rules of the grammar, and of whole programs.

* `Stories`: the stories of all that a rule may ask of the grammar;
* `Story.block`, `Story.subroutineDeclaration`, `Story.subroutineLiteral`: blocks and subroutines;
* `Story.operand`, `Story.climb`, `Story.expression`: expressions;
* `Story.statement`: each kind of statement;
* `Story.reading`: the rules by way of each other, with room for as many rules as tokens are left;
* `Story.program`: programs.
-/
namespace AresSyntax

/-- Operators open and close nothing. -/
theorem Site.taking_of_unary {k : Kind} {o : List Bracket} {d n : Nat} (h : k.isUnaryOperator) :
    (within o d n).taking k = within o d (n - 1) := by
  unfold Kind.isUnaryOperator at h
  split at h
  all_goals first | rfl | cases h

theorem Site.taking_of_binary {k : Kind} {o : List Bracket} {d n : Nat}
    (h : 0 < k.precedence.rank) : (within o d n).taking k = within o d (n - 1) := by
  cases k with
  | binary op => rfl
  | _ => cases h

theorem Site.taking_of_assignment {k : Kind} {o : List Bracket} {d n : Nat}
    (h : k.isAssignment) : (within o d n).taking k = within o d (n - 1) := by
  cases k with
  | assign op => rfl
  | _ => cases h

theorem Site.taking_literal (l : Literal) {o : List Bracket} {d n : Nat} :
    (within o d n).taking (.literal l) = within o d (n - 1) := by
  cases l <;> rfl

theorem Site.taking_keyword {k : Keyword} {o : List Bracket} {d n : Nat} (h : k ≠ .defWord) :
    (within o d n).taking (.keyword k) = within o d (n - 1) := by
  cases k with
  | defWord => exact absurd rfl h
  | _ => rfl

theorem Site.le_of_eq {w w' : Site} (h : w = w') : w.Le w' := h ▸ .refl w

/-- The levels that the reader counts, at the start of what is asked for, beyond those of the open
brackets. The value of an assignment and the operand of a prefix operator are inside an
expression. -/
def Goal.extra : Goal → Nat
  | statement | expression => 0
  | assignment | operand => 1

/-- Whatever is asked of a grammar with at most `n` tokens left, in any brackets, has a script, and
takes a token. -/
def Stories (n : Nat) (again : View → Grammar) : Type :=
  ∀ (g : Goal) (o : List Bracket) (d j : Nat), j ≤ n → d = Brackets.levels ⟨o, .none⟩ + g.extra →
    Story (Site.within o d j) (fun v => again v g) fun _ => Site.within o d (j - 1)

namespace Story
open Site

variable {n d j : Nat} {again : View → Grammar} {o : List Bracket} {head : Heading}

/-! ## Blocks and subroutines -/

def separator {otherwise : View → Parse Unit}
    (last : Story (within o d j) otherwise fun _ => within o d j) :
    Story (within o d j) (fun v => Grammar.separator (otherwise v)) fun _ => within o d j :=
  .check (.bind (.advanceLines rfl) fun _ => .done () (h := within_le (Nat.sub_le _ _)))
    (.check (.relax .skipNewlines seeing_le_within fun _ => .refl _) last)

def blockSeparator :
    Story (within o d j) (fun _ => Grammar.blockSeparator) fun _ => within o d j :=
  .separator (.check (.done () (h := seeing_le_within)) (.refuse (GrammarError.expected_ne _)))

def blockStatement? (h : Stories n again) (room : j ≤ n) (level : d = Brackets.levels ⟨o, .none⟩) :
    Story (within o d j) (fun v => Grammar.blockStatement? (again v)) ((within o d j).behind j) :=
  .look fun t => .ite (t.kind ∈ [.mark .closeBrace, .endOfText])
    (fun _ => .done none (h := seeing_le_within))
    (.bind (.relax (h .statement o d j room level) seeing_le_within fun _ => .refl _)
      fun statement => .bind .blockSeparator fun _ => .done (some statement))

/-- A block is inside its brace, which counts for the level that is entered behind it. -/
def block (h : Stories n again) (room : j ≤ n + 1)
    (level : d + 1 = Brackets.levels ⟨head.brace :: o, .none⟩) :
    Story (headed o head d j) (fun v => Grammar.block v.limit (again v))
      fun _ => within o d (j - 1) :=
  .bind .skipNewlines fun _ => .bind (.expect (.mark .openBrace) .openBlock) fun opening =>
    .bind .skipNewlines fun _ =>
    .bind (.nested .block level
      (.collect (w := within (head.brace :: o) (d + 1) (j - 1)) fun k hk =>
        .blockStatement? h (Nat.le_trans hk (Nat.sub_le_of_le_add room)) level)) fun statements =>
    .bind (.expect (.mark .closeBrace) .closeBlock) fun _ =>
    .done (.node (Label.block.token opening.location) statements)
      (h := ⟨congrArg (Brackets.mk o) head.behind_brace, rfl, Nat.sub_le _ _, nofun⟩)

def identifier {e : Expectation} :
    Story (headed o head d j) (fun _ => Grammar.identifier e)
      fun _ => headed o head.behindIdent d (j - 1) :=
  .bind (.expect _ e) fun t => .done (.leaf t)

def parameters {named : Bool} :
    Story (headed o (.start named) d j) (fun _ => Grammar.parameters)
      fun _ => headed o (.signature named) d (j - 1) :=
  .bind (.expect (.mark .openParen) .openParameters) fun opening => .bind .skipNewlines fun _ =>
    .checkThen (.done [] (h := seeing_le_within)) (.relax (.commaSeparated fun _ _ => .identifier)
      (.refl _) fun _ => within_le (Nat.sub_le _ _)) fun names =>
      .close (.node (Label.subParams.token opening.location) names)
        (h := ⟨rfl, rfl, Nat.sub_le _ _, nofun⟩)

/-- A subroutine counts for the levels of its brace, whether it has a name or not. -/
def parametersAndBody {named : Bool} (h : Stories n again) (room : j ≤ n + 1)
    (level : d + 1 = Brackets.levels ⟨(Heading.signature named).brace :: o, .none⟩) :
    Story (headed o (.start named) d j) (fun v => Grammar.parametersAndBody v.limit (again v))
      fun _ => within o d (j - 1) :=
  .bind .parameters fun params =>
    .bind (.inSubroutine (.block h (Nat.le_trans (Nat.sub_le _ _) room) level)) fun body =>
    .done [params, body] (h := within_le (Nat.sub_le _ _))

def subroutineDeclaration (h : Stories n again) (room : j ≤ n + 1)
    (level : d = Brackets.levels ⟨o, .none⟩) :
    Story ((within o d j).seeing (.keyword .defWord))
      (fun v => Grammar.subroutineDeclaration v.limit (again v)) fun _ => within o d (j - 1) :=
  have left : j - 1 - 1 ≤ n + 1 := by omega
  have counted : d + 1 = Brackets.levels ⟨(Heading.signature true).brace :: o, .none⟩ := by
    simp only [level, Brackets.levels_cons, Heading.brace, Bracket.levels, Nat.add_comm]
  have less : j - 1 - 1 - 1 ≤ j - 1 := by omega
  .bind (.advance rfl) fun start => .bind .identifier fun name =>
    .bind (.parametersAndBody h left counted) fun parts =>
    .done (.node (Label.subDecl.token start.location) (name :: parts)) (h := within_le less)

def subroutineLiteral (h : Stories n again) (room : j ≤ n + 1)
    (level : d = Brackets.levels ⟨o, .none⟩ + 1) :
    Story ((within o d j).seeing (.keyword .defWord))
      (fun v => Grammar.subroutineLiteral v.limit (again v)) fun _ => within o d (j - 1) :=
  have left : j - 1 ≤ n + 1 := by omega
  have counted : d + 1 = Brackets.levels ⟨(Heading.signature false).brace :: o, .none⟩ := by
    simp only [level, Brackets.levels_cons, Heading.brace, Bracket.levels]
    omega
  .bind (.advance rfl) fun start => .bind (.parametersAndBody h left counted) fun parts =>
    .done (.node (Label.subLiteral.token start.location) parts)
      (h := within_le (Nat.sub_le _ _))

/-! ## Expressions -/

/-- In a bracket that was opened in an expression the next level is that of an expression. -/
theorem level_inside (level : d = Brackets.levels ⟨o, .none⟩ + 1) :
    d = Brackets.levels ⟨.plain :: o, .none⟩ := by
  rw [level, Brackets.levels_cons, Bracket.levels, Nat.add_comm]

def group (h : Stories n again) (room : j ≤ n + 1) (level : d = Brackets.levels ⟨o, .none⟩ + 1) :
    Story ((within o d j).seeing (.mark .openParen)) (fun v => Grammar.group (again v))
      fun _ => within o d (j - 1) :=
  have left : j - 1 ≤ n := by omega
  have less : j - 1 - 1 - 1 ≤ j - 1 := by omega
  .bind (.advanceLines rfl) fun _ =>
    .bind (h .expression (.plain :: o) d (j - 1) left (level_inside level)) fun inner =>
    .close inner (h := within_le less)

def expressions {closing : Mark} {e : Expectation} (h : Stories n again) (room : j ≤ n)
    (level : d = Brackets.levels ⟨.plain :: o, .none⟩)
    (closes : Brackets.after ⟨.plain :: o, .none⟩ (.mark closing) = ⟨o, .none⟩) :
    Story (within (.plain :: o) d j) (fun v => Grammar.expressions (again v) closing e)
      fun _ => within o d j :=
  .checkThen (.done [] (h := seeing_le_within))
    (.relax
      (.commaSeparated fun k hk => h .expression (.plain :: o) d k (Nat.le_trans hk room) level)
      (.refl _) fun _ => within_le (Nat.sub_le _ _)) fun items =>
    .close items (h := ⟨closes, rfl, Nat.sub_le _ _, nofun⟩)

def array (h : Stories n again) (room : j ≤ n + 1) (level : d = Brackets.levels ⟨o, .none⟩ + 1) :
    Story ((within o d j).seeing (.mark .openBracket)) (fun v => Grammar.array (again v))
      fun _ => within o d (j - 1) :=
  have left : j - 1 ≤ n := by omega
  .bind (.advanceLines rfl) fun opening =>
    .bind (.expressions h left (level_inside level) rfl) fun elements =>
    .done (.node (Label.arrayDecl.token opening.location) elements)

def hashElement (h : Stories n again) (room : j ≤ n) (level : d = Brackets.levels ⟨o, .none⟩) :
    Story (within o d j) (fun v => Grammar.hashElement (again v)) fun _ => within o d (j - 1) :=
  have left : j - 1 - 1 ≤ n := by omega
  have less : j - 1 - 1 - 1 ≤ j - 1 := by omega
  .look fun start =>
    .bind (.relax (h .expression o d j room level) seeing_le_within fun _ => .refl _) fun key =>
    .bind (.expect (.mark .arrow) .arrow) fun _ => .bind .skipNewlines fun _ =>
    .bind (h .expression o d (j - 1 - 1) left level) fun value =>
    .done (.node (Label.hashElem.token start.location) [key, value]) (h := within_le less)

def hashElement? (h : Stories n again) (room : j ≤ n) (level : d = Brackets.levels ⟨o, .none⟩) :
    Story (within o d j) (fun v => Grammar.hashElement? (again v)) ((within o d j).behind j) :=
  .check (.done none (h := seeing_le_within))
    (.bind (.hashElement h room level) fun element => .done (some element))

def nextHashElement? (h : Stories n again) (room : j ≤ n)
    (level : d = Brackets.levels ⟨o, .none⟩) :
    Story (within o d j) (fun v => Grammar.nextHashElement? (again v)) ((within o d j).behind j) :=
  have left : j - 1 ≤ n := by omega
  .check
    (.bind (.advanceLines rfl) fun _ => .relax (.hashElement? h left level) (.refl _) fun
      | none => within_le (Nat.sub_le _ _)
      | some _ => within_le (Nat.sub_le _ _))
    (.done none)

def hashElements (h : Stories n again) (room : j ≤ n) (level : d = Brackets.levels ⟨o, .none⟩) :
    Story (within o d j) (fun v => Grammar.hashElements (again v)) fun _ => within o d j :=
  have left {k : Nat} (hk : k ≤ j - 1) : k ≤ n := by omega
  have less : (within o d (j - 1)).Le (within o d j) := within_le (Nat.sub_le _ _)
  .bind (.hashElement? h room level) fun element => by
    cases element with
    | none => exact .done []
    | some first =>
      exact .bind (.collect (w := within o d (j - 1)) fun k hk =>
          .nextHashElement? h (left hk) level)
        fun others => .done (first :: others) (h := less)

def hash (h : Stories n again) (room : j ≤ n + 1) (level : d = Brackets.levels ⟨o, .none⟩ + 1) :
    Story ((within o d j).seeing (.mark .openBrace)) (fun v => Grammar.hash (again v))
      fun _ => within o d (j - 1) :=
  have left : j - 1 ≤ n := by omega
  .bind (.advanceLines rfl) fun opening =>
    .bind (.hashElements (o := .plain :: o) h left (level_inside level)) fun elements =>
    .close (.node (Label.hashDecl.token opening.location) elements)
      (h := within_le (Nat.sub_le _ _))

def atom (h : Stories n again) (room : j ≤ n + 1) (level : d = Brackets.levels ⟨o, .none⟩ + 1) :
    Story (within o d j) (fun v => Grammar.atom v.limit (again v)) fun _ => within o d (j - 1) :=
  .look fun ⟨kind, _, _, _⟩ => by
    cases kind with
    | literal l =>
      exact .bind (.advance rfl) fun t => .done (.leaf t) (h := le_of_eq (taking_literal l))
    | mark m =>
      cases m with
      | openBracket => exact .array h room level
      | openBrace => exact .hash h room level
      | openParen => exact .group h room level
      | _ => exact .refuse GrammarError.expectedExpression_ne
    | keyword k =>
      cases k with
      | defWord => exact .subroutineLiteral h room level
      | _ => exact .refuse GrammarError.expectedExpression_ne
    | _ => exact .refuse GrammarError.expectedExpression_ne

def subscript (h : Stories n again) (room : j ≤ n + 1)
    (level : d = Brackets.levels ⟨o, .none⟩ + 1) (base : Tree) :
    Story ((within o d j).seeing (.mark .openBracket))
      (fun v => Grammar.subscript (again v) (recast v.recasting base))
      fun _ => within o d (j - 1) :=
  have left : j - 1 ≤ n := by omega
  have less : j - 1 - 1 - 1 ≤ j - 1 := by omega
  .bind (.advanceLines rfl) fun opening =>
    .bind (h .expression (.plain :: o) d (j - 1) left (level_inside level)) fun index =>
    .close (.node (Label.subscript.token opening.location) [base, index]) (h := within_le less)

def call (h : Stories n again) (room : j ≤ n + 1) (level : d = Brackets.levels ⟨o, .none⟩ + 1)
    (callee : Tree) :
    Story ((within o d j).seeing (.mark .openParen))
      (fun v => Grammar.call (again v) (recast v.recasting callee)) fun _ => within o d (j - 1) :=
  have left : j - 1 ≤ n := by omega
  .bind (.advanceLines rfl) fun opening =>
    .bind (.expressions h left (level_inside level) rfl) fun arguments =>
    .done (.node (Label.call.token opening.location) (callee :: arguments))

def trailer? (h : Stories n again) (room : j ≤ n + 1)
    (level : d = Brackets.levels ⟨o, .none⟩ + 1) (base : Tree) :
    Story (within o d j) (fun v => Grammar.trailer? (again v) (recast v.recasting base))
      ((within o d j).behind j) :=
  .look fun ⟨kind, _, _, _⟩ => by
    cases kind with
    | mark m =>
      cases m with
      | openBracket => exact .bind (.subscript h room level base) fun t => .done (some t)
      | openParen => exact .bind (.call h room level base) fun t => .done (some t)
      | _ => exact .done none (h := seeing_le_within)
    | _ => exact .done none (h := seeing_le_within)

def trailed (h : Stories n again) (room : j ≤ n + 1)
    (level : d = Brackets.levels ⟨o, .none⟩ + 1) :
    Story (within o d j) (fun v => Grammar.trailed v.limit (again v)) fun _ => within o d (j - 1) :=
  have left {k : Nat} (hk : k ≤ j - 1) : k ≤ n + 1 := by omega
  .bind (.atom h room level) fun base =>
    .iterate (w := within o d (j - 1)) (fun _ hk base => .trailer? h (left hk) level base) base

def operand (h : Stories n again) (room : j ≤ n + 1)
    (level : d = Brackets.levels ⟨o, .none⟩ + 1) :
    Story (within o d j) (fun v => Grammar.operand v.limit (again v)) fun _ => within o d (j - 1) :=
  have left : j - 1 ≤ n := by omega
  .look fun sign => .ite sign.kind.isUnaryOperator
    (fun unary =>
      .bind (.relax (.advanceLines rfl) (.refl _) fun _ => le_of_eq (taking_of_unary unary))
        fun _ => .bind (h .operand o d (j - 1) left level) fun inner =>
        .done (.node sign.asPrefixOperator [inner]) (h := within_le (Nat.sub_le _ _)))
    (.relax (.trailed h room level) seeing_le_within fun _ => .refl _)

/-- Operators with a positive rank are read, and a right operand behind each. -/
def fold? {least : Nat} {right : View → Nat → Parse Tree} (positive : 0 < least)
    (rights : ∀ rank, Story (within o d (j - 1)) (fun v => right v (rank + 1))
      fun _ => within o d (j - 1 - 1))
    (left : Tree) :
    Story (within o d j) (fun v => Grammar.fold? least (right v) (recast v.recasting left))
      ((within o d j).behind j) :=
  .look fun op => .ite (least ≤ op.kind.precedence.rank)
    (fun binds =>
      have sign := taking_of_binary (Nat.lt_of_lt_of_le positive binds)
      .bind (.relax (.advanceLines rfl) (.refl _) fun _ => le_of_eq sign)
        fun _ => .bind (rights op.kind.precedence.rank) fun e =>
        .done (some (.node op [left, e])) (h := within_le (Nat.sub_le _ _)))
    (.done none (h := seeing_le_within))

def climb {operand : View → Parse Tree}
    (operands : ∀ k ≤ n, Story (within o d k) operand fun _ => within o d (k - 1)) :
    ∀ (levels least j : Nat), 0 < least → j ≤ n →
      Story (within o d j) (fun v => Grammar.climb (operand v) levels least)
        fun _ => within o d (j - 1)
  | 0, _, j, _, room => operands j room
  | levels + 1, _, j, positive, room =>
    have left {k : Nat} (hk : k ≤ j - 1) : k - 1 ≤ n := by omega
    .bind (operands j room) fun first =>
      .iterate (w := within o d (j - 1)) (fun k hk inner => .fold? positive
        (fun rank => climb operands levels (rank + 1) (k - 1) (Nat.succ_pos _) (left hk)) inner)
        first

def assignment (h : Stories n again) (room : j ≤ n + 1)
    (level : d = Brackets.levels ⟨o, .none⟩ + 1) :
    Story (within o d j) (fun v => Grammar.assignment v.limit (again v))
      fun _ => within o d (j - 1) :=
  have left : j - 1 - 1 ≤ n := by omega
  have less : j - 1 - 1 - 1 ≤ j - 1 := by omega
  .bind (.climb (fun _ hk => .operand h hk level) _ _ j (by decide) room) fun target =>
    .look fun op => .ite op.kind.isAssignment
      (fun sign => .ite target.kind.isAssignable
        (fun _ => .bind (.relax (.advanceLines rfl) (.refl _) fun _ =>
            le_of_eq (taking_of_assignment sign)) fun _ =>
          .bind (h .assignment o d (j - 1 - 1) left level) fun value =>
          .done (.node op [target, value]) (h := within_le less))
        (.refuse GrammarError.assignmentTarget_ne))
      (.done target (h := seeing_le_within))

def expression (h : Stories n again) (room : j ≤ n + 1)
    (level : d = Brackets.levels ⟨o, .none⟩) :
    Story (within o d j) (fun v => Grammar.expression v.limit (again v))
      fun _ => within o d (j - 1) :=
  .nested (w := within o d j) .expression (congrArg (· + 1) level)
    (.assignment h room (congrArg (· + 1) level))

/-! ## Statements and programs -/

/-- A word that starts a statement, but for `def`. -/
def word {k : Keyword} (h : k ≠ .defWord) :
    Story ((within o d j).seeing (.keyword k)) (fun _ => Parse.advance)
      fun _ => within o d (j - 1) :=
  .relax (.advance rfl) (.refl _) fun _ => le_of_eq (taking_keyword h)

/-- A block that is no part of an expression. -/
def bareBlock (h : Stories n again) (room : j ≤ n + 1) (level : d = Brackets.levels ⟨o, .none⟩) :
    Story (within o d j) (fun v => Grammar.block v.limit (again v)) fun _ => within o d (j - 1) :=
  have counted : d + 1 = Brackets.levels ⟨.plain :: o, .none⟩ := by
    simp only [level, Brackets.levels_cons, Bracket.levels, Nat.add_comm]
  .block h room counted

def guarded {k : Keyword} (h : Stories n again) (room : j ≤ n + 1)
    (level : d = Brackets.levels ⟨o, .none⟩) (other : k ≠ .defWord) :
    Story ((within o d j).seeing (.keyword k)) (fun v => Grammar.guarded v.limit (again v))
      fun _ => within o d (j - 1) :=
  have left : j - 1 ≤ n := by omega
  have left' : j - 1 - 1 ≤ n + 1 := by omega
  have less : j - 1 - 1 - 1 ≤ j - 1 := by omega
  .bind (.word other) fun start =>
    .bind (h .expression o d (j - 1) left level) fun condition =>
    .bind (.bareBlock h left' level) fun body =>
    .done (.node start [condition, body]) (h := within_le less)

def elifClause? (h : Stories n again) (room : j ≤ n + 1) (level : d = Brackets.levels ⟨o, .none⟩) :
    Story (within o d j) (fun v => Grammar.elifClause? v.limit (again v))
      ((within o d j).behind j) :=
  have left : j - 1 ≤ n := by omega
  have left' : j - 1 - 1 ≤ n + 1 := by omega
  have less : j - 1 - 1 - 1 ≤ j - 1 := by omega
  .ifAccepted
    (.bind (h .expression o d (j - 1) left level) fun condition =>
      .bind (.bareBlock h left' level) fun body =>
      .done (some [condition, body]) (h := within_le less))
    (.done none)

def elifClauses (h : Stories n again) (room : j ≤ n + 1)
    (level : d = Brackets.levels ⟨o, .none⟩) :
    Story (within o d j) (fun v => Grammar.elifClauses v.limit (again v)) fun _ => within o d j :=
  .look fun start => .bind (.relax (.collect (w := within o d j) fun _ hk =>
      .elifClause? h (Nat.le_trans hk room) level) seeing_le_within fun _ => .refl _) fun clauses =>
    .done (.node (Label.elifClauses.token start.location) clauses.flatten)

def elseBlock (h : Stories n again) (room : j ≤ n + 1) (level : d = Brackets.levels ⟨o, .none⟩) :
    Story (within o d j) (fun v => Grammar.elseBlock v.limit (again v)) fun _ => within o d j :=
  have left : j - 1 ≤ n + 1 := by omega
  have less : j - 1 - 1 ≤ j := by omega
  .ifAccepted
    (.bind (.bareBlock h left level) fun body => .done [body] (h := within_le less))
    (.done [])

def conditional (h : Stories n again) (room : j ≤ n + 1)
    (level : d = Brackets.levels ⟨o, .none⟩) :
    Story ((within o d j).seeing (.keyword .ifWord))
      (fun v => Grammar.conditional v.limit (again v)) fun _ => within o d (j - 1) :=
  have left : j - 1 ≤ n + 1 := by omega
  .bind (.guarded h room level nofun) fun ⟨start, first⟩ =>
    .bind (.elifClauses h left level) fun clauses =>
    .bind (.elseBlock h left level) fun last =>
    .done (.node start (first ++ clauses :: last))

def iteration (h : Stories n again) (room : j ≤ n + 1) (level : d = Brackets.levels ⟨o, .none⟩) :
    Story ((within o d j).seeing (.keyword .forWord))
      (fun v => Grammar.iteration v.limit (again v)) fun _ => within o d (j - 1) :=
  have left : j - 1 - 1 - 1 ≤ n := by omega
  have left' : j - 1 - 1 - 1 - 1 ≤ n + 1 := by omega
  have less : j - 1 - 1 - 1 - 1 - 1 ≤ j - 1 := by omega
  .bind (.word nofun) fun start => .bind .identifier fun name =>
    .bind (.expect (.keyword .inWord) .inWord) fun _ =>
    .bind (h .expression o d (j - 1 - 1 - 1) left level) fun range =>
    .bind (.bareBlock h left' level) fun body =>
    .done (.node start [name, range, body]) (h := within_le less)

def commanded {k : Keyword} (h : Stories n again) (room : j ≤ n + 1)
    (level : d = Brackets.levels ⟨o, .none⟩) (other : k ≠ .defWord) :
    Story ((within o d j).seeing (.keyword k)) (fun v => Grammar.commanded (again v))
      fun _ => within o d (j - 1) :=
  have left : j - 1 ≤ n := by omega
  .bind (.word other) fun start => .bind (h .expression o d (j - 1) left level) fun value =>
    .done (.node start [value]) (h := within_le (Nat.sub_le _ _))

def returned (h : Stories n again) (room : j ≤ n + 1) (level : d = Brackets.levels ⟨o, .none⟩) :
    Story ((within o d j).seeing (.keyword .returnWord)) (fun v => Grammar.returned (again v))
      fun _ => within o d (j - 1) :=
  have left : j - 1 ≤ n := by omega
  .whereInside
    (.bind (.word nofun) fun start => .look fun t => .ite t.kind.endsReturn
      (fun _ => .done (.leaf start) (h := seeing_le_within))
      (.bind (.relax (h .expression o d (j - 1) left level) seeing_le_within fun _ => .refl _)
        fun value => .done (.node start [value]) (h := within_le (Nat.sub_le _ _))))
    (.refuseFirst GrammarError.returnOutside_ne)

/-- An expression whose first token was looked at. -/
def expressionSeen {k : Kind} (h : Stories n again) (room : j ≤ n + 1)
    (level : d = Brackets.levels ⟨o, .none⟩) :
    Story ((within o d j).seeing k) (fun v => Grammar.expression v.limit (again v))
      fun _ => within o d (j - 1) :=
  .relax (.expression h room level) seeing_le_within fun _ => .refl _

/-! An expression that starts with `def` takes this word first, and so does a subroutine with a
name. -/

theorem subroutineDeclaration_goes (h : Stories n again) (room : j ≤ n + 1)
    (level : d = Brackets.levels ⟨o, .none⟩) :
    (subroutineDeclaration h room level).script.Goes (.keyword .defWord) :=
  Script.Goes.bind (s := .take .done) trivial

theorem subroutineLiteral_goes (h : Stories n again) (room : j ≤ n + 1)
    (level : d = Brackets.levels ⟨o, .none⟩ + 1) :
    (subroutineLiteral h room level).script.Goes (.keyword .defWord) :=
  Script.Goes.bind (s := .take .done) trivial

theorem atom_goes (h : Stories n again) (room : j ≤ n + 1)
    (level : d = Brackets.levels ⟨o, .none⟩ + 1) :
    (atom h room level).script.Goes (.keyword .defWord) := by
  rintro ⟨kind, _, _, _⟩ _ _ ⟨⟩
  exact subroutineLiteral_goes h room level

theorem operand_goes (h : Stories n again) (room : j ≤ n + 1)
    (level : d = Brackets.levels ⟨o, .none⟩ + 1) :
    (operand h room level).script.Goes (.keyword .defWord) := by
  rintro ⟨kind, _, _, _⟩ _ _ ⟨⟩
  exact Script.Goes.bind (atom_goes h room level)

theorem climb_goes {k : Kind} {operand : View → Parse Tree}
    (operands : ∀ i ≤ n, Story (within o d i) operand fun _ => within o d (i - 1))
    (goes : ∀ i hi, (operands i hi).script.Goes k) (levels least : Nat) (positive : 0 < least)
    (room : j ≤ n) : (climb operands levels least j positive room).script.Goes k := by
  cases levels with
  | zero => exact goes j room
  | succ levels => exact Script.Goes.bind (goes j room)

theorem expression_goes (h : Stories n again) (room : j ≤ n + 1)
    (level : d = Brackets.levels ⟨o, .none⟩) :
    (expression h room level).script.Goes (.keyword .defWord) := by
  have inside : d + 1 = Brackets.levels ⟨o, .none⟩ + 1 := congrArg (· + 1) level
  have operands := fun i (hi : i ≤ n + 1) => operand_goes h hi inside
  exact Script.Goes.bind (Script.Goes.bind (climb_goes _ operands _ _ (by decide) room))

def statement (h : Stories n again) (room : j ≤ n + 1) (level : d = Brackets.levels ⟨o, .none⟩) :
    Story (within o d j) (fun v => Grammar.statement v.limit (again v))
      fun _ => within o d (j - 1) :=
  .look fun ⟨kind, _, _, _⟩ => by
    cases kind with
    | keyword k =>
      cases k with
      | defWord =>
        exact .peek rfl (.expressionSeen h room level) (.subroutineDeclaration h room level)
          (expression_goes h room level) (subroutineDeclaration_goes h room level)
      | ifWord => exact .conditional h room level
      | whileWord | untilWord => exact .guarded h room level nofun
      | forWord => exact .iteration h room level
      | importWord | debugWord => exact .commanded h room level nofun
      | returnWord => exact .returned h room level
      | _ => exact .expressionSeen h room level
    | _ => exact .expressionSeen h room level

def rule (h : Stories n again) : Stories (n + 1) fun v => Grammar.rule v.limit (again v)
  | .statement, _, _, _, room, level => .statement h room level
  | .expression, _, _, _, room, level => .expression h room level
  | .assignment, _, _, _, room, level => .assignment h room level
  | .operand, _, _, _, room, level => .operand h room level

/-- No reader has fewer than no tokens left, so nothing is said of a grammar there. -/
def unread : Stories 0 again := fun _ _ _ _ room _ =>
  { script := .refuse .expectedExpression
    tells := fun _ _ hr => absurd (Nat.lt_of_lt_of_le hr.room room) (Nat.not_lt_zero _)
    keeps := GrammarError.expectedExpression_ne
    steady := trivial }

/-- With no more tokens left than rules may wait, the rules by way of each other follow scripts. -/
def reading : ∀ n, Stories n fun v => Grammar.reading v.limit (v.spare + n)
  | 0 => unread
  | n + 1 => rule (reading n)

def programStatement? (h : Stories n again) (room : j ≤ n)
    (level : d = Brackets.levels ⟨o, .none⟩) :
    Story (within o d j) (fun v => Parse.programStatement? (again v)) ((within o d j).behind j) :=
  .check (.done none (h := seeing_le_within))
    (.bind (h .statement o d j room level) fun statement =>
      .bind (.separator (.bind (.expect .endOfText .endOfText) fun _ => .done ())) fun _ =>
      .done (some statement))

end Story

/-- The statements of a program behind its first line ends. -/
def Parse.statements (grammar : Grammar) : Parse (List Tree) := do
  skipNewlines
  collect (programStatement? grammar)

/-- A program as far as the grammar goes. -/
def Parse.programBy (grammar : Grammar) : Parse Tree := do
  let start ← current
  return .node (Label.block.token start.location) (← statements grammar)

namespace Story
open Site

variable {n d : Nat} {again : View → Grammar} {o : List Bracket}

/-- The statements of a program, with brackets still open that count for the levels that the reader
counts where it starts. -/
def statementsBy (h : Stories n again) (level : d = Brackets.levels ⟨o, .none⟩) :
    Story (within o d n) (fun v => Parse.statements (again v)) fun _ => within o d n :=
  .bind .skipNewlines fun _ =>
    .collect (w := within o d n) fun _ hj => .programStatement? h hj level

def statementsAt (level : d = Brackets.levels ⟨o, .none⟩) (n : Nat) :
    Story (within o d n) (fun v => Parse.statements (Grammar.reading v.limit (v.spare + n)))
      fun _ => within o d n :=
  statementsBy (reading n) level

def statements (n : Nat) :
    Story (within [] 0 n) (fun v => Parse.statements (Grammar.reading v.limit (v.spare + n)))
      fun _ => within [] 0 n :=
  statementsAt rfl n

def programBy (h : Stories n again) (level : d = Brackets.levels ⟨o, .none⟩) :
    Story (within o d n) (fun v => Parse.programBy (again v)) fun _ => within o d n :=
  .look fun start => .bind (.relax (.statementsBy h level) seeing_le_within fun _ => .refl _)
    fun statements => .done (.node (Label.block.token start.location) statements)

def programAt (level : d = Brackets.levels ⟨o, .none⟩) (n : Nat) :
    Story (within o d n) (fun v => Parse.programBy (Grammar.reading v.limit (v.spare + n)))
      fun _ => within o d n :=
  programBy (reading n) level

def program (n : Nat) :
    Story (within [] 0 n) (fun v => Parse.programBy (Grammar.reading v.limit (v.spare + n)))
      fun _ => within [] 0 n :=
  programAt rfl n

end Story
end AresSyntax
