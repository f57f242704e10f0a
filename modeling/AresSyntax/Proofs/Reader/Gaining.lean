import AresSyntax.Proofs.Reader.Restoring
import AresSyntax.Proofs.Script.Sites

/-!
What a request takes. A rule that gives a result has taken a token of its construct, and no request
leaves more tokens than it found.

* `Reader.Gained`: the readers behind a token that is neither a line end nor the end token;
* `Reader.Took.work_le`, `Reader.Gained.work_lt`, `Reader.Onward.work_le`: the tokens left;
* `Parse.GainsFor`, `Parse.Gains`: the requests that gain a token for some results, or for all;
* `Grammar.Gaining`, `Grammar.reading_gaining`: all rules.
-/
namespace AresSyntax

namespace Reader

variable {r r' s : Reader} {t : Token}

/-- Taking a token other than the end token leaves one less. -/
theorem work_lt_of_advance (taken : Parse.advance r = .ok t r') (other : t.kind ≠ .endOfText) :
    r'.work < r.work := by
  have same := (shift_of_advance taken).1
  rw [work_of_advance taken, Kind.rest_of_ne other]
  exact Nat.sub_lt (work_pos (same ▸ other)) Nat.one_pos

/-- Taking tokens does not add to those that are left. -/
theorem Took.work_le (h : r.Took r') : r'.work ≤ r.work := by
  induction h with
  | here c => exact Nat.le_refl _
  | next _ taken ih =>
    rw [work_of_advance taken]
    exact Nat.le_trans (Kind.rest_le _ _) ih

/-- Where no token can be read for the lookahead, no more tokens are left than before: the one that
is looked at still counts in place of the one that is gone. -/
theorem work_shift_le (hr : r.Regular) : r.shift.work ≤ r.work := by
  cases taken : Parse.advance r with
  | ok t r' =>
    obtain ⟨-, rfl⟩ := shift_of_advance taken
    exact (Took.next (.refl r) taken).work_le
  | error f r' =>
    obtain ⟨rfl, stays, g, -, fault⟩ := shift_of_advance_error taken
    have other : r.current.kind ≠ .endOfText := by
      intro last
      rw [advance_at_end hr last] at taken
      cases taken
    have later : r.shift.stream.pending.countP Outcome.isPresent =
        r.stream.pending.countP Outcome.isPresent :=
      TokenStream.countP_pending (Prod.ext fault rfl)
    have before : r.work = (.ok r.next :: r.stream.pending).countP Outcome.isPresent + 1 :=
      List.countP_cons_of_pos (by simp [Outcome.isPresent, other])
    have behind : r.shift.work =
        (.ok r.next :: .ok r.next :: r.shift.stream.pending).countP Outcome.isPresent := by
      rw [work, ahead, stays]
      rfl
    rw [before, behind, List.countP_cons, List.countP_cons, List.countP_cons, later]
    split <;> omega

theorem Onward.work_le (h : r.Onward r') (hr : r.Regular) : r'.work ≤ r.work := by
  induction h with
  | here c => exact Nat.le_refl _
  | shift before ih => exact Nat.le_trans (work_shift_le (before.regular hr)) ih

/-- The readers behind a token of `r` that is neither a line end nor the end token. -/
def Gained (r r' : Reader) : Prop :=
  ∃ s t s', r.Took s ∧ Parse.advance s = .ok t s' ∧
    t.kind ≠ .mark .newline ∧ t.kind ≠ .endOfText ∧ s'.Took r'

namespace Gained

theorem before (h : r.Gained s) (later : s.Took r') : r.Gained r' := by
  obtain ⟨q, t, q', first, taken, noLine, noEnd, behind⟩ := h
  exact ⟨q, t, q', first, taken, noLine, noEnd, behind.trans later⟩

theorem behind (first : r.Took s) (h : s.Gained r') : r.Gained r' := by
  obtain ⟨q, t, q', more, taken, noLine, noEnd, behind⟩ := h
  exact ⟨q, t, q', first.trans more, taken, noLine, noEnd, behind⟩

theorem of_advance (taken : Parse.advance r = .ok t r') (noLine : r.current.kind ≠ .mark .newline)
    (noEnd : r.current.kind ≠ .endOfText) : r.Gained r' := by
  obtain ⟨rfl, -⟩ := shift_of_advance taken
  exact ⟨r, r.current, r', .refl r, taken, noLine, noEnd, .refl r'⟩

theorem work_lt (h : r.Gained r') : r'.work < r.work := by
  obtain ⟨s, t, s', first, taken, -, noEnd, behind⟩ := h
  calc r'.work ≤ s'.work := behind.work_le
    _ < s.work := work_lt_of_advance taken noEnd
    _ ≤ r.work := first.work_le

end Gained
end Reader

namespace Parse

variable {α β : Type}

/-- Holds for requests that have gained a token where they give one of the results `on`. -/
def GainsFor (on : α → Prop) (p : Parse α) : Prop :=
  ∀ r a r', p r = .ok a r' → on a → r.Gained r'

/-- Holds for requests that have gained a token where they give a result. -/
abbrev Gains (p : Parse α) : Prop := p.GainsFor fun _ => True

theorem Gains.gained {p : Parse α} {r r' : Reader} {a : α} (h : p.Gains) (ran : p r = .ok a r') :
    r.Gained r' :=
  h r a r' ran trivial

namespace GainsFor

variable {on : α → Prop} {onLast : β → Prop}

/-- A request gains a token if its first part does. -/
theorem before {p : Parse α} {q : α → Parse β} (hp : p.Gains) (hq : ∀ a, (q a).Restores) :
    (p >>= q).GainsFor onLast := by
  intro r b r' ran _
  obtain ⟨a, s, first, second⟩ := bind_eq_ok.1 ran
  exact (hp.gained first).before ((hq a).result second).1

/-- A request gains a token if what comes behind its first part does. -/
theorem behind {p : Parse α} {q : α → Parse β} (hp : p.Restores)
    (hq : ∀ a, (q a).GainsFor onLast) : (p >>= q).GainsFor onLast := by
  intro r b r' ran wanted
  obtain ⟨a, s, first, second⟩ := bind_eq_ok.1 ran
  exact .behind (hp.result first).1 (hq a s b r' second wanted)

theorem ite {c : Prop} [Decidable c] {p q : Parse α} (hp : p.GainsFor on) (hq : q.GainsFor on) :
    (if c then p else q).GainsFor on := by
  split
  · exact hp
  · exact hq

/-- Nothing has to be gained for other results. -/
theorem pure {a : α} (other : ¬ on a) : (Pure.pure a : Parse α).GainsFor on := by
  intro r b r' ran wanted
  obtain ⟨rfl, -⟩ := pure_eq_ok.1 ran
  exact absurd wanted other

theorem none : (Pure.pure none : Parse (Option α)).GainsFor fun o => o.isSome :=
  pure Bool.false_ne_true

theorem refuse {e : GrammarError} : (Parse.refuse e : Parse α).GainsFor on := by
  intro r a r' ran
  exact (refuse_eq_ok.1 ran).elim

theorem expect {k : Kind} {e : Expectation} (noLine : k ≠ .mark .newline)
    (noEnd : k ≠ .endOfText) : (Parse.expect k e).Gains := by
  intro r t r' ran _
  obtain ⟨rfl, taken⟩ := expect_eq_ok.1 ran
  exact .of_advance taken noLine noEnd

theorem nested {limit : Option Nat} {body : Parse α} (h : body.Gains) :
    (Parse.nested limit body).Gains := by
  intro r a r' ran _
  obtain ⟨-, s, inner, rfl⟩ := nested_eq_ok.1 ran
  have entered : r.Took (r.placed r.context.deeper) := .here _
  have left : s.Took (s.placed ⟨s.depth - 1, s.inSubroutine⟩) := .here _
  exact .behind entered ((h.gained inner).before left)

theorem inSubroutine {body : Parse α} (h : body.Gains) : (Parse.inSubroutine body).Gains := by
  intro r a r' ran _
  obtain ⟨s, inner, rfl⟩ := inSubroutine_eq_ok.1 ran
  have entered : r.Took (r.placed r.context.body) := .here _
  have left : s.Took (s.placed ⟨s.depth, r.inSubroutine⟩) := .here _
  exact .behind entered ((h.gained inner).before left)

end GainsFor
end Parse

/-! ## The rules of the grammar -/

namespace Grammar
open Parse

variable {limit : Option Nat} {again : Grammar}

/-- Holds for grammars whose rules gain a token, and close what they open. -/
structure Gaining (again : Grammar) : Prop where
  restoring : again.Restoring
  gains : ∀ g, (again g).Gains

variable (h : again.Gaining)
include h

theorem blockStatement?_gains : (blockStatement? again).GainsFor fun o => o.isSome :=
  .behind .current fun _ => .ite .none
    (.before (h.gains .statement) fun _ => .bind blockSeparator_restores fun _ => .pure _)

theorem block_gains : (block limit again).Gains :=
  .behind .skipNewlines fun _ => .behind (.expect _ _) fun _ => .behind .skipNewlines fun _ =>
    .behind (.nested (.collect (blockStatement?_restores h.restoring))) fun _ =>
    .before (.expect (by decide) (by decide)) fun _ => .pure _

omit h in
theorem identifier_gains (e : Expectation) : (identifier e).Gains :=
  .before (.expect (by decide) (by decide)) fun _ => .pure _

theorem parametersAndBody_gains : (parametersAndBody limit again).Gains :=
  .behind parameters_restores fun _ => .before (.inSubroutine (block_gains h)) fun _ => .pure _

theorem subroutineDeclaration_gains : (subroutineDeclaration limit again).Gains :=
  .behind .advance fun _ => .before (identifier_gains _) fun _ =>
    .bind (parametersAndBody_restores h.restoring) fun _ => .pure _

theorem subroutineLiteral_gains : (subroutineLiteral limit again).Gains :=
  .behind .advance fun _ => .before (parametersAndBody_gains h) fun _ => .pure _

theorem group_gains : (group again).Gains :=
  .behind .advanceLines fun _ => .before (h.gains .expression) fun _ =>
    .bind .skipNewlines fun _ => .bind (.expect _ _) fun _ => .pure _

/-- Also an empty list of expressions has a closing bracket. -/
theorem expressions_gains {closing : Mark} (other : closing ≠ .newline) (e : Expectation) :
    (expressions again closing e).Gains := by
  have rest (items : List Tree) : Gains (do
      skipNewlines
      let _ ← expect (.mark closing) e
      return items) :=
    .behind .skipNewlines fun _ =>
      .before (.expect (by simpa using other) (by simp)) fun _ => .pure _
  exact .behind (.check _) fun _ => .ite (.behind (.pure []) rest)
    (.behind (.commaSeparated (h.restoring .expression)) rest)

theorem array_gains : (array again).Gains :=
  .behind .advanceLines fun _ => .before (expressions_gains h (by decide) _) fun _ => .pure _

theorem hashElement?_gains : (hashElement? again).GainsFor fun o => o.isSome := by
  have element : (hashElement again).Gains :=
    .behind .current fun _ => .before (h.gains .expression) fun _ => .bind (.expect _ _) fun _ =>
      .bind .skipNewlines fun _ => .bind (h.restoring .expression) fun _ => .pure _
  exact .behind (.check _) fun _ => .ite .none (.before element fun _ => .pure _)

theorem nextHashElement?_gains : (nextHashElement? again).GainsFor fun o => o.isSome :=
  .behind (.check _) fun _ => .ite (.behind .advanceLines fun _ => hashElement?_gains h) .none

theorem hash_gains : (hash again).Gains :=
  .behind .advanceLines fun _ => .behind (hashElements_restores h.restoring) fun _ =>
    .behind .skipNewlines fun _ => .before (.expect (by decide) (by decide)) fun _ => .pure _

theorem atom_gains : (atom limit again).Gains := by
  intro r a r' ran _
  simp only [atom, current_bind] at ran
  generalize kind : r.current.kind = k at ran
  split at ran
  case h_1 =>
    obtain ⟨t, s, taken, given⟩ := bind_eq_ok.1 ran
    obtain ⟨-, rfl⟩ := pure_eq_ok.1 given
    exact .of_advance taken (by simp [kind]) (by simp [kind])
  case h_2 => exact (array_gains h).gained ran
  case h_3 => exact (hash_gains h).gained ran
  case h_4 => exact (group_gains h).gained ran
  case h_5 => exact (subroutineLiteral_gains h).gained ran
  case h_6 => exact (refuse_eq_ok.1 ran).elim

theorem trailer?_gains (base : Tree) :
    (trailer? again base).GainsFor fun o => o.isSome := by
  have subscripted : (subscript again base).Gains :=
    .behind .advanceLines fun _ => .before (h.gains .expression) fun _ =>
      .bind .skipNewlines fun _ => .bind (.expect _ _) fun _ => .pure _
  have called : (call again base).Gains :=
    .behind .advanceLines fun _ => .before (expressions_gains h (by decide) _) fun _ => .pure _
  refine .behind .current fun t => ?_
  split
  · exact .before subscripted fun _ => .pure _
  · exact .before called fun _ => .pure _
  · exact .none

theorem operand_gains : (operand limit again).Gains :=
  .behind .current fun _ => .ite
    (.behind .advanceLines fun _ => .before (h.gains .operand) fun _ => .pure _)
    (.before (atom_gains h) fun base => .iterate (trailer?_restores h.restoring) base)

omit h in
theorem fold?_gains {least : Nat} {right : Nat → Parse Tree} (gains : ∀ n, (right n).Gains)
    (left : Tree) : (fold? least right left).GainsFor fun o => o.isSome :=
  .behind .current fun _ => .ite
    (.behind .advanceLines fun _ => .before (gains _) fun _ => .pure _) .none

omit h in
theorem climb_gains {operand : Parse Tree} (restores : operand.Restores) (gains : operand.Gains)
    (levels least : Nat) : (climb operand levels least).Gains := by
  cases levels with
  | zero => exact gains
  | succ levels =>
    have folds (left : Tree) : (fold? least (climb operand levels) left).Restores :=
      fold?_restores (climb_restores restores levels) left
    exact .before gains fun left => .iterate folds left

theorem assignment_gains : (assignment limit again).Gains :=
  .before (climb_gains (operand_restores h.restoring) (operand_gains h) _ _) fun _ =>
    .bind .current fun _ => .ite
      (.ite (.bind .advanceLines fun _ => .bind (h.restoring .assignment) fun _ => .pure _)
        (.refuse _))
      (.pure _)

theorem expression_gains : (expression limit again).Gains :=
  .nested (assignment_gains h)

theorem guarded_gains : (guarded limit again).Gains :=
  .behind .advance fun _ => .before (h.gains .expression) fun _ =>
    .bind (block_restores h.restoring) fun _ => .pure _

theorem elifClause?_gains : (elifClause? limit again).GainsFor fun o => o.isSome :=
  .behind (.accept _) fun _ => .ite
    (.before (h.gains .expression) fun _ => .bind (block_restores h.restoring) fun _ => .pure _)
    .none

theorem conditional_gains : (conditional limit again).Gains := by
  refine .before (guarded_gains h) fun first => ?_
  cases first
  exact .bind (elifClauses_restores h.restoring) fun _ =>
    .bind (elseBlock_restores h.restoring) fun _ => .pure _

theorem iteration_gains : (iteration limit again).Gains :=
  .behind .advance fun _ => .before (identifier_gains _) fun _ => .bind (.expect _ _) fun _ =>
    .bind (h.restoring .expression) fun _ => .bind (block_restores h.restoring) fun _ => .pure _

theorem commanded_gains : (commanded again).Gains :=
  .behind .advance fun _ => .before (h.gains .expression) fun _ => .pure _

/-- A way out without a value gains its own word. -/
theorem returned_gains {r r' : Reader} {a : Tree} (word : r.current.kind = .keyword .returnWord)
    (ran : returned again r = .ok a r') : r.Gained r' := by
  have behind (start : Token) : Restores (do
      if (← current).kind.endsReturn then return Tree.leaf start
      return Tree.node start [← again .expression]) :=
    .bind .current fun _ => .ite (.pure _)
      (.bind (h.restoring .expression) fun _ => .pure _)
  simp only [returned, get_bind] at ran
  split at ran
  · obtain ⟨start, s, taken, last⟩ := bind_eq_ok.1 ran
    have gained : r.Gained s := .of_advance taken (by rw [word]; simp) (by rw [word]; simp)
    exact gained.before ((behind start).result last).1
  · obtain ⟨_, _, refused, _⟩ := bind_eq_ok.1 ran
    exact (refuse_eq_ok.1 refused).elim

theorem statement_gains : (statement limit again).Gains := by
  intro r a r' ran _
  simp only [statement, current_bind] at ran
  generalize kind : r.current.kind = k at ran
  split at ran
  case h_1 =>
    simp only [get_bind, ite_eq_ok] at ran
    obtain ⟨_, value⟩ | ⟨_, declaration⟩ := ran
    · exact (expression_gains h).gained value
    · exact (subroutineDeclaration_gains h).gained declaration
  case h_2 => exact (conditional_gains h).gained ran
  case h_3 | h_4 => exact (guarded_gains h).gained ran
  case h_5 => exact (iteration_gains h).gained ran
  case h_6 | h_7 => exact (commanded_gains h).gained ran
  case h_8 => exact returned_gains h kind ran
  case h_9 => exact (expression_gains h).gained ran

theorem rule_gaining : (rule limit again).Gaining where
  restoring := rule_restores h.restoring
  gains
    | .statement => statement_gains h
    | .expression => expression_gains h
    | .assignment => assignment_gains h
    | .operand => operand_gains h

omit h in
/-- Every rule gains a token, no matter how many rules may wait. -/
theorem reading_gaining (limit : Option Nat) (stack : Nat) : (reading limit stack).Gaining := by
  induction stack with
  | zero => exact ⟨reading_restores limit 0, fun _ => .refuse⟩
  | succ stack ih => exact rule_gaining ih

end Grammar
end AresSyntax
