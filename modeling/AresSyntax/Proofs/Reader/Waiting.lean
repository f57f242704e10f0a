import AresSyntax.Grammar.Program
import AresSyntax.Proofs.Soundness.Expressions
import AresSyntax.Proofs.Tree.Chains

/-!
Trees that are read with a bound on the rules that wait. An assignment waits for its value and a
prefix operator for its operand, so no more of them stand one below another than rules may wait.

* `Parse.Ensures`: what holds of every result of a request;
* `Ensures.bind`, `Ensures.iterate`, `Ensures.collect`: requests built from others;
* `Grammar.WaitsWithin`: grammars whose trees have no longer chains than a bound;
* `Grammar.reading_waitsWithin`: the rules of a grammar on a bounded call stack.
-/
namespace AresSyntax

namespace Parse

variable {α β : Type} {P Q : α → Prop} {R : β → Prop}

/-- Holds for requests of whose results `P` holds. -/
def Ensures (P : α → Prop) (p : Parse α) : Prop := ∀ ⦃r a r'⦄, p r = .ok a r' → P a

namespace Ensures

theorem pure {a : α} (h : P a) : Ensures P (Pure.pure a) := by
  intro r b r' given
  obtain ⟨rfl, -⟩ := pure_eq_ok.1 given
  exact h

theorem refuse (e : GrammarError) : Ensures P (Parse.refuse e) :=
  fun _ _ _ run => (refuse_eq_ok.1 run).elim

theorem weaken {p : Parse α} (h : Ensures P p) (imp : ∀ a, P a → Q a) : Ensures Q p :=
  fun _ _ _ run => imp _ (h run)

theorem bind {p : Parse α} {q : α → Parse β} (hp : Ensures P p)
    (hq : ∀ a, P a → Ensures R (q a)) : Ensures R (p >>= q) := by
  intro r b r' run
  obtain ⟨a, s, first, others⟩ := bind_eq_ok.1 run
  exact hq a (hp first) others

/-- What the last request ensures does not depend on the results before it. -/
theorem next {p : Parse α} {q : α → Parse β} (hq : ∀ a, Ensures R (q a)) :
    Ensures R (p >>= q) := by
  intro r b r' run
  obtain ⟨a, s, -, others⟩ := bind_eq_ok.1 run
  exact hq a others

theorem ite {c : Prop} [Decidable c] {p q : Parse α} (hp : c → Ensures P p)
    (hq : ¬ c → Ensures P q) : Ensures P (if c then p else q) := by
  split
  · exact hp ‹_›
  · exact hq ‹_›

theorem expect (k : Kind) (e : Expectation) : Ensures (·.kind = k) (Parse.expect k e) := by
  intro r t r' run
  obtain ⟨kind, taken⟩ := expect_eq_ok.1 run
  obtain ⟨_, _, _, rfl, _⟩ := Reader.advance_eq_ok.1 taken
  exact kind

theorem iterateWithin {step : α → Parse (Option α)}
    (hs : ∀ a, P a → Ensures (fun o => ∀ b ∈ o, P b) (step a)) (os : List Outcome) {a : α}
    (start : P a) : Ensures P (Parse.iterateWithin step os a) := by
  induction os generalizing a with
  | nil =>
    refine .bind (hs a start) fun o ho => .pure ?_
    cases o with
    | none => exact start
    | some b => exact ho b rfl
  | cons o os ih =>
    refine .bind (hs a start) fun o ho => ?_
    cases o with
    | none => exact .pure start
    | some b => exact ih (ho b rfl)

theorem iterate {step : α → Parse (Option α)}
    (hs : ∀ a, P a → Ensures (fun o => ∀ b ∈ o, P b) (step a)) {a : α} (start : P a) :
    Ensures P (Parse.iterate step a) :=
  fun r _ _ run => iterateWithin hs r.ahead start run

theorem collectWithin {step : Parse (Option α)} (hs : Ensures (fun o => ∀ a ∈ o, P a) step)
    (os : List Outcome) : Ensures (fun as => ∀ a ∈ as, P a) (Parse.collectWithin step os) := by
  induction os with
  | nil => exact .bind hs fun o ho => .pure (by simpa using ho)
  | cons o os ih =>
    refine .bind hs fun o ho => ?_
    cases o with
    | none => exact .pure nofun
    | some a => exact .bind ih fun as has => .pure (List.forall_mem_cons.2 ⟨ho a rfl, has⟩)

theorem collect {step : Parse (Option α)} (hs : Ensures (fun o => ∀ a ∈ o, P a) step) :
    Ensures (fun as => ∀ a ∈ as, P a) (Parse.collect step) :=
  fun r _ _ run => collectWithin hs r.ahead run

theorem commaSeparated {item : Parse α} (h : Ensures P item) :
    Ensures (fun as => ∀ a ∈ as, P a) (Parse.commaSeparated item) := by
  refine .bind h fun first hfirst => .bind (.collect ?_) fun others hothers =>
    .pure (List.forall_mem_cons.2 ⟨hfirst, hothers⟩)
  exact .next fun _ => .ite (fun _ => .next fun _ => .bind h fun a ha => .pure (by simpa using ha))
    fun _ => .pure nofun

theorem nested {limit : Option Nat} {body : Parse α} (h : Ensures P body) :
    Ensures P (Parse.nested limit body) := by
  intro r a r' run
  obtain ⟨-, s, inner, -⟩ := nested_eq_ok.1 run
  exact h inner

theorem inSubroutine {body : Parse α} (h : Ensures P body) :
    Ensures P (Parse.inSubroutine body) := by
  intro r a r' run
  obtain ⟨s, inner, -⟩ := inSubroutine_eq_ok.1 run
  exact h inner

end Ensures
end Parse

/-- Holds for trees in which at most `n` rules wait one below another. -/
def Tree.WaitsWithin (n : Nat) (t : Tree) : Prop := t.chain Kind.waits ≤ n

/-- Holds for trees of operands of which the targets of assignments wait for one rule less. -/
def Tree.OperandWithin (n : Nat) (t : Tree) : Prop :=
  t.WaitsWithin (n + 1) ∧ (t.kind.isAssignable → t.WaitsWithin n)

namespace Tree.WaitsWithin

variable {n : Nat} {t : Token} {u : Tree} {us : List Tree}

theorem label (l : Label) (location : Location) (h : ∀ u ∈ us, u.WaitsWithin n) :
    (node (l.token location) us).WaitsWithin n := by
  rw [WaitsWithin, chain_waits_label]
  exact chainAll_le.2 h

/-- Whatever the token is, one rule more may wait than below. -/
theorem node (t : Token) (h : ∀ u ∈ us, u.WaitsWithin n) : (node t us).WaitsWithin (n + 1) := by
  have below := chainAll_le.2 h
  have root := Bool.toNat_le t.kind.waits
  rw [WaitsWithin, chain_node]
  omega

theorem leaf (plain : t.kind.waits = false) : (leaf t).WaitsWithin n := by
  rw [WaitsWithin, Tree.leaf, chain_node, plain]
  exact Nat.zero_le n

theorem up (h : u.WaitsWithin n) : u.WaitsWithin (n + 1) := Nat.le_succ_of_le h

end Tree.WaitsWithin

/-- A binary operator waits for none of its operands, and is no target. -/
theorem Tree.OperandWithin.binary {n : Nat} {l e : Tree} {t : Token} {op : BinaryOp}
    (hl : l.OperandWithin n) (kind : t.kind = .binary op) (he : e.OperandWithin n) :
    (node t [l, e]).OperandWithin n := by
  have left : l.chain Kind.waits ≤ n + 1 := hl.1
  have right : e.chain Kind.waits ≤ n + 1 := he.1
  have plain : t.kind.waits = false := by rw [kind]; rfl
  constructor
  · simp only [WaitsWithin, chain_node, plain, Bool.toNat_false, chainAll_cons, chainAll_nil]
    omega
  · intro target
    simp [Tree.kind, Tree.token, kind, Kind.isAssignable] at target

/-! ## The rules of the grammar -/

namespace Grammar
open Parse AresSyntax.Tree

/-- Holds for grammars whose trees have at most `n` rules that wait one below another. -/
def WaitsWithin (n : Nat) (again : Grammar) : Prop := ∀ g, (again g).Ensures (·.WaitsWithin n)

section
variable {limit : Option Nat} {n : Nat} {again : Grammar} (h : again.WaitsWithin n)
include h

theorem block_waits : (block limit again).Ensures (·.WaitsWithin n) := by
  have statement : (blockStatement? again).Ensures (fun o => ∀ u ∈ o, u.WaitsWithin n) :=
    .next fun _ => .ite (fun _ => .pure nofun) fun _ => .bind (h .statement) fun u hu =>
      .next fun _ => .pure (by simpa using hu)
  exact .next fun _ => .next fun _ => .next fun _ => .bind (.nested (.collect statement))
    fun _ hus => .next fun _ => .pure (.label _ _ hus)

omit h in
theorem identifier_waits (e : Expectation) : (identifier e).Ensures (·.WaitsWithin n) :=
  .bind (.expect _ e) fun _ kind => .pure (.leaf (by rw [kind]; rfl))

omit h in
theorem parameters_waits : parameters.Ensures (·.WaitsWithin n) := by
  refine .next fun _ => .next fun _ => .next fun _ => .ite (fun _ => ?_) fun _ => ?_
  · exact .bind (P := fun us => ∀ u ∈ us, u.WaitsWithin n) (.pure nofun) fun _ hus =>
      .next fun _ => .next fun _ => .pure (.label _ _ hus)
  · exact .bind (.commaSeparated (identifier_waits _)) fun _ hus =>
      .next fun _ => .next fun _ => .pure (.label _ _ hus)

theorem parametersAndBody_waits :
    (parametersAndBody limit again).Ensures (fun us => ∀ u ∈ us, u.WaitsWithin n) :=
  .bind (parameters_waits (n := n)) fun _ params =>
    .bind (.inSubroutine (block_waits h)) fun _ body => .pure (by simp [params, body])

theorem subroutineDeclaration_waits :
    (subroutineDeclaration limit again).Ensures (·.WaitsWithin n) :=
  .next fun _ => .bind (identifier_waits _) fun _ name =>
    .bind (parametersAndBody_waits h) fun _ hus =>
      .pure (.label _ _ (List.forall_mem_cons.2 ⟨name, hus⟩))

theorem subroutineLiteral_waits : (subroutineLiteral limit again).Ensures (·.WaitsWithin n) :=
  .next fun _ => .bind (parametersAndBody_waits h) fun _ hus => .pure (.label _ _ hus)

theorem group_waits : (group again).Ensures (·.WaitsWithin n) :=
  .next fun _ => .bind (h .expression) fun _ hu => .next fun _ => .next fun _ => .pure hu

theorem expressions_waits (closing : Mark) (e : Expectation) :
    (expressions again closing e).Ensures (fun us => ∀ u ∈ us, u.WaitsWithin n) := by
  refine .next fun _ => .ite (fun _ => ?_) fun _ => ?_
  · exact .bind (P := fun us => ∀ u ∈ us, u.WaitsWithin n) (.pure nofun) fun _ hus =>
      .next fun _ => .next fun _ => .pure hus
  · exact .bind (.commaSeparated (h .expression)) fun _ hus =>
      .next fun _ => .next fun _ => .pure hus

theorem array_waits : (array again).Ensures (·.WaitsWithin n) :=
  .next fun _ => .bind (expressions_waits h _ _) fun _ hus => .pure (.label _ _ hus)

theorem hashElement?_waits :
    (hashElement? again).Ensures (fun o => ∀ u ∈ o, u.WaitsWithin n) := by
  have element : (hashElement again).Ensures (·.WaitsWithin n) :=
    .next fun _ => .bind (h .expression) fun _ key => .next fun _ => .next fun _ =>
      .bind (h .expression) fun _ value => .pure (.label _ _ (by simp [key, value]))
  exact .next fun _ => .ite (fun _ => .pure nofun) fun _ =>
    .bind element fun _ hu => .pure (by simpa using hu)

theorem hashElements_waits :
    (hashElements again).Ensures (fun us => ∀ u ∈ us, u.WaitsWithin n) := by
  have further : (nextHashElement? again).Ensures (fun o => ∀ u ∈ o, u.WaitsWithin n) :=
    .next fun _ => .ite (fun _ => .next fun _ => hashElement?_waits h) fun _ => .pure nofun
  refine .bind (hashElement?_waits h) fun o ho => ?_
  cases o with
  | none => exact .pure nofun
  | some u =>
    exact .bind (.collect further) fun _ hus => .pure (List.forall_mem_cons.2 ⟨ho u rfl, hus⟩)

theorem hash_waits : (hash again).Ensures (·.WaitsWithin n) :=
  .next fun _ => .bind (hashElements_waits h) fun _ hus =>
    .next fun _ => .next fun _ => .pure (.label _ _ hus)

theorem atom_waits : (atom limit again).Ensures (·.WaitsWithin n) := by
  intro r u r' run
  simp only [atom, current_bind] at run
  generalize kind : r.current.kind = k at run
  split at run
  · obtain ⟨t, s, taken, given⟩ := bind_eq_ok.1 run
    obtain ⟨_, _, _, rfl, _⟩ := Reader.advance_eq_ok.1 taken
    obtain ⟨rfl, -⟩ := pure_eq_ok.1 given
    exact .leaf (by rw [kind]; rfl)
  · exact array_waits h run
  · exact hash_waits h run
  · exact group_waits h run
  · exact subroutineLiteral_waits h run
  · exact (refuse_eq_ok.1 run).elim

theorem trailer?_waits {base : Tree} (hbase : base.WaitsWithin n) :
    (trailer? again base).Ensures (fun o => ∀ u ∈ o, u.WaitsWithin n) := by
  have subscripted : (subscript again base).Ensures (·.WaitsWithin n) :=
    .next fun _ => .bind (h .expression) fun _ index => .next fun _ => .next fun _ =>
      .pure (.label _ _ (by simp [hbase, index]))
  have called : (call again base).Ensures (·.WaitsWithin n) :=
    .next fun _ => .bind (expressions_waits h _ _) fun _ hus =>
      .pure (.label _ _ (List.forall_mem_cons.2 ⟨hbase, hus⟩))
  refine .next fun t => ?_
  split
  · exact .bind subscripted fun _ hu => .pure (by simpa using hu)
  · exact .bind called fun _ hu => .pure (by simpa using hu)
  · exact .pure nofun

theorem trailed_waits : (trailed limit again).Ensures (·.WaitsWithin n) :=
  .bind (atom_waits h) fun _ base => .iterate (fun _ => trailer?_waits h) base

/-- A prefix operator waits for its operand, but then it is no target of an assignment. -/
theorem operand_waits : (operand limit again).Ensures (Tree.OperandWithin n) := by
  refine .next fun sign => .ite (fun unary => ?_) fun _ => ?_
  · refine .next fun _ => .bind (h .operand) fun e he => .pure ⟨.node _ (by simpa using he), ?_⟩
    obtain kind | kind | kind := Kind.isUnaryOperator_iff.1 unary <;>
      simp [Tree.kind, Tree.token, Token.asPrefixOperator, kind, Kind.isAssignable]
  · exact (trailed_waits h).weaken fun _ hu => ⟨hu.up, fun _ => hu⟩

omit h in
theorem climb_waits {operand : Parse Tree} (ho : operand.Ensures (Tree.OperandWithin n))
    (levels : Nat) {least : Nat} (hl : 0 < least) :
    (climb operand levels least).Ensures (Tree.OperandWithin n) := by
  induction levels generalizing least with
  | zero => exact ho
  | succ levels ih =>
    refine .bind ho fun first hfirst => .iterate (fun left hleft => ?_) hfirst
    refine .next fun op => .ite (fun tight => ?_) fun _ => .pure nofun
    obtain ⟨b, kind, -⟩ := Kind.binary_of_rank (Nat.lt_of_lt_of_le hl tight)
    exact .next fun _ => .bind (ih (Nat.succ_pos _)) fun _ hright =>
      .pure (by simpa using hleft.binary kind hright)

theorem binary_waits : (binary limit again).Ensures (Tree.OperandWithin n) :=
  climb_waits (operand_waits h) _ (by decide)

theorem assignment_waits : (assignment limit again).Ensures (·.WaitsWithin (n + 1)) := by
  refine .bind (binary_waits h) fun left hleft => .next fun op => .ite (fun _ => ?_) fun _ => ?_
  · refine .ite (fun target => ?_) fun _ => .refuse _
    exact .next fun _ => .bind (h .assignment) fun value hvalue =>
      .pure (.node _ (by simp [hleft.2 target, hvalue]))
  · exact .pure hleft.1

theorem expression_waits : (expression limit again).Ensures (·.WaitsWithin (n + 1)) :=
  .nested (assignment_waits h)

/-- What is known of a node that starts with a word is what is known below it. -/
theorem guarded_waits :
    (guarded limit again).Ensures (fun t => ∀ u ∈ t.children, u.WaitsWithin n) :=
  .next fun _ => .bind (h .expression) fun _ condition => .bind (block_waits h) fun _ body =>
    .pure (by simp [Tree.children, condition, body])

theorem elifClauses_waits : (elifClauses limit again).Ensures (·.WaitsWithin n) := by
  have clause : (elifClause? limit again).Ensures
      (fun o => ∀ us ∈ o, ∀ u ∈ us, u.WaitsWithin n) :=
    .next fun _ => .ite (fun _ => .bind (h .expression) fun _ condition =>
      .bind (block_waits h) fun _ body => .pure (by simp [condition, body])) fun _ => .pure nofun
  exact .next fun _ => .bind (.collect clause) fun _ hus =>
    .pure (.label _ _ (List.forall_mem_flatten.2 hus))

theorem elseBlock_waits :
    (elseBlock limit again).Ensures (fun us => ∀ u ∈ us, u.WaitsWithin n) :=
  .next fun _ => .ite (fun _ => .bind (block_waits h) fun _ body => .pure (by simpa using body))
    fun _ => .pure nofun

theorem conditional_waits : (conditional limit again).Ensures (·.WaitsWithin (n + 1)) := by
  refine .bind (guarded_waits h) fun first parts => ?_
  obtain ⟨start, cs⟩ := first
  refine .bind (elifClauses_waits h) fun _ further => .bind (elseBlock_waits h) fun _ last => ?_
  exact .pure (.node _ (List.forall_mem_append.2 ⟨parts, List.forall_mem_cons.2 ⟨further, last⟩⟩))

theorem iteration_waits : (iteration limit again).Ensures (·.WaitsWithin (n + 1)) :=
  .next fun _ => .bind (identifier_waits (n := n) _) fun _ name => .next fun _ =>
    .bind (h .expression) fun _ range => .bind (block_waits h) fun _ body =>
      .pure (.node _ (by simp [name, range, body]))

theorem commanded_waits : (commanded again).Ensures (·.WaitsWithin (n + 1)) :=
  .next fun _ => .bind (h .expression) fun _ value => .pure (.node _ (by simpa using value))

theorem returned_waits : (returned again).Ensures (·.WaitsWithin (n + 1)) := by
  have rest : Parse.Ensures (·.WaitsWithin (n + 1)) (do
      let start ← advance
      if (← current).kind.endsReturn then return Tree.leaf start
      return Tree.node start [← again .expression]) :=
    .next fun _ => .next fun _ => .ite (fun _ => .pure (.node _ nofun)) fun _ =>
      .bind (h .expression) fun _ value => .pure (.node _ (by simpa using value))
  exact .next fun _ => .ite (fun _ => rest) fun _ => .next fun _ => rest

theorem statement_waits : (statement limit again).Ensures (·.WaitsWithin (n + 1)) := by
  have guard : (guarded limit again).Ensures (·.WaitsWithin (n + 1)) :=
    (guarded_waits h).weaken fun ⟨_, _⟩ parts => .node _ parts
  refine .next fun t => ?_
  split
  · exact .next fun _ => .ite (fun _ => expression_waits h) fun _ =>
      (subroutineDeclaration_waits h).weaken fun _ hu => hu.up
  · exact conditional_waits h
  · exact guard
  · exact guard
  · exact iteration_waits h
  · exact commanded_waits h
  · exact commanded_waits h
  · exact returned_waits h
  · exact expression_waits h

theorem rule_waits : (rule limit again).WaitsWithin (n + 1)
  | .statement => statement_waits h
  | .expression => expression_waits h
  | .assignment => assignment_waits h
  | .operand => (operand_waits h).weaken fun _ hu => hu.1

end

/-- No more rules wait one below another in a tree than may do so while it is read. -/
theorem reading_waitsWithin (limit : Option Nat) (stack : Nat) :
    (reading limit stack).WaitsWithin stack := by
  induction stack with
  | zero => exact fun _ => .refuse _
  | succ stack ih => exact rule_waits ih

end Grammar

theorem Parse.programStatement?_waits {n : Nat} {again : Grammar} (h : again.WaitsWithin n) :
    (programStatement? again).Ensures (fun o => ∀ u ∈ o, u.WaitsWithin n) :=
  .next fun _ => .ite (fun _ => .pure nofun) fun _ => .bind (h .statement) fun _ hu =>
    .next fun _ => .pure (by simpa using hu)

/-- On a bounded call stack a program with more rules that wait for one another is not found. -/
theorem Parse.program_waits (limit : Option Nat) (stack : Nat) :
    (program ⟨limit, some stack⟩).Ensures (·.WaitsWithin stack) :=
  .next fun _ => .next fun _ => .next fun _ =>
    .bind (.collect (programStatement?_waits (Grammar.reading_waitsWithin limit stack)))
      fun _ hus => .pure (.label _ _ hus)

end AresSyntax
