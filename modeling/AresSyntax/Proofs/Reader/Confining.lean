import AresSyntax.Grammar.Program
import AresSyntax.Proofs.Reader.Results

/-!
Requests with less room for rules that wait. With more room a rule does the same, but where it was
refused for its depth.

* `Parse.Confined`: a request does what another one does, or is refused for its depth;
* `Confined.bind`, `Confined.iterate`, `Confined.nested`: requests built from others;
* `Grammar.reading_confined`: the rules with less room and with more;
* `Parse.programStatement?_confined`: the statements of a program.
-/
namespace AresSyntax

namespace Parse

variable {α β : Type}

/-- Holds for a request `p` that does what `q` does, or is refused for its depth. -/
def Confined (p q : Parse α) : Prop :=
  ∀ r, p r = q r ∨ ∃ t r', p r = .error (.grammar .nestedTooDeeply t) r'

namespace Confined

theorem refl (p : Parse α) : p.Confined p := fun _ => .inl rfl

theorem refuse (q : Parse α) : (Parse.refuse .nestedTooDeeply).Confined q :=
  fun r => .inr ⟨r.current, r, rfl⟩

theorem bind {p p' : Parse α} {q q' : α → Parse β} (hp : p.Confined p')
    (hq : ∀ a, (q a).Confined (q' a)) : (p >>= q).Confined (p' >>= q') := by
  intro r
  obtain same | ⟨t, r', refused⟩ := hp r
  · cases ran : p' r with
    | ok a s =>
      rw [bind_ok (same.trans ran), bind_ok ran]
      exact hq a s
    | error f s => exact .inl ((bind_error (same.trans ran)).trans (bind_error ran).symm)
  · exact .inr ⟨t, r', bind_error refused⟩

theorem bind_right {p : Parse α} {q q' : α → Parse β} (hq : ∀ a, (q a).Confined (q' a)) :
    (p >>= q).Confined (p >>= q') :=
  .bind (.refl p) hq

theorem bind_left {p p' : Parse α} {q : α → Parse β} (hp : p.Confined p') :
    (p >>= q).Confined (p' >>= q) :=
  .bind hp fun a => .refl (q a)

theorem ite {c : Prop} [Decidable c] {p p' q q' : Parse α} (hp : p.Confined p')
    (hq : q.Confined q') : (if c then p else q).Confined (if c then p' else q') := by
  split
  · exact hp
  · exact hq

theorem iterateWithin {step step' : α → Parse (Option α)} (h : ∀ a, (step a).Confined (step' a))
    (os : List Outcome) (a : α) :
    (Parse.iterateWithin step os a).Confined (Parse.iterateWithin step' os a) := by
  induction os generalizing a with
  | nil => exact .bind_left (h a)
  | cons o os ih =>
    refine .bind (h a) fun b => ?_
    cases b with
    | none => exact .refl _
    | some b => exact ih b

theorem collectWithin {step step' : Parse (Option α)} (h : step.Confined step')
    (os : List Outcome) :
    (Parse.collectWithin step os).Confined (Parse.collectWithin step' os) := by
  induction os with
  | nil => exact .bind_left h
  | cons o os ih =>
    refine .bind h fun a => ?_
    cases a with
    | none => exact .refl _
    | some a => exact .bind_left ih

theorem iterate {step step' : α → Parse (Option α)} (h : ∀ a, (step a).Confined (step' a))
    (a : α) : (Parse.iterate step a).Confined (Parse.iterate step' a) :=
  fun r => iterateWithin h r.ahead a r

theorem collect {step step' : Parse (Option α)} (h : step.Confined step') :
    (Parse.collect step).Confined (Parse.collect step') :=
  fun r => collectWithin h r.ahead r

theorem commaSeparated {item item' : Parse α} (h : item.Confined item') :
    (Parse.commaSeparated item).Confined (Parse.commaSeparated item') :=
  .bind h fun _ => .bind_left (.collect (.bind_right fun _ =>
    .ite (.bind_right fun _ => .bind_left h) (.refl _)))

theorem nested {limit : Option Nat} {body body' : Parse α} (h : body.Confined body') :
    (Parse.nested limit body).Confined (Parse.nested limit body') :=
  .bind_right fun _ => .bind_right fun _ =>
    .ite (.bind_right fun _ => .bind_left h) (.bind_left h)

theorem inSubroutine {body body' : Parse α} (h : body.Confined body') :
    (Parse.inSubroutine body).Confined (Parse.inSubroutine body') :=
  .bind_right fun _ => .bind_right fun _ => .bind_left h

end Confined
end Parse

/-! ## The rules of the grammar -/

namespace Grammar
open Parse

/-- Holds for a grammar whose rules do what those of another one do, or are refused for their
depth. -/
def Confined (again again' : Grammar) : Prop := ∀ g, (again g).Confined (again' g)

theorem climb_confined {operand operand' : Parse Tree} (h : operand.Confined operand')
    (levels least : Nat) :
    (climb operand levels least).Confined (climb operand' levels least) := by
  induction levels generalizing least with
  | zero => exact h
  | succ levels ih =>
    have folds (left : Tree) : (fold? least (climb operand levels) left).Confined
        (fold? least (climb operand' levels) left) :=
      .bind_right fun _ => .ite (.bind_right fun _ => .bind_left (ih _)) (.refl _)
    exact .bind h fun left => .iterate folds left

section
variable {limit : Option Nat} {again again' : Grammar} (h : again.Confined again')
include h

theorem block_confined : (block limit again).Confined (block limit again') := by
  have statements : (blockStatement? again).Confined (blockStatement? again') :=
    .bind_right fun _ => .ite (.refl _) (.bind_left (h .statement))
  exact .bind_right fun _ => .bind_right fun _ => .bind_right fun _ =>
    .bind_left (.nested (.collect statements))

theorem parametersAndBody_confined :
    (parametersAndBody limit again).Confined (parametersAndBody limit again') :=
  .bind_right fun _ => .bind_left (.inSubroutine (block_confined h))

theorem subroutineDeclaration_confined :
    (subroutineDeclaration limit again).Confined (subroutineDeclaration limit again') :=
  .bind_right fun _ => .bind_right fun _ => .bind_left (parametersAndBody_confined h)

theorem subroutineLiteral_confined :
    (subroutineLiteral limit again).Confined (subroutineLiteral limit again') :=
  .bind_right fun _ => .bind_left (parametersAndBody_confined h)

theorem group_confined : (group again).Confined (group again') :=
  .bind_right fun _ => .bind_left (h .expression)

theorem expressions_confined (closing : Mark) (e : Expectation) :
    (expressions again closing e).Confined (expressions again' closing e) :=
  .bind_right fun _ => .ite (.refl _) (.bind_left (.commaSeparated (h .expression)))

theorem array_confined : (array again).Confined (array again') :=
  .bind_right fun _ => .bind_left (expressions_confined h _ _)

theorem hashElement?_confined : (hashElement? again).Confined (hashElement? again') := by
  have element : (hashElement again).Confined (hashElement again') :=
    .bind_right fun _ => .bind (h .expression) fun _ => .bind_right fun _ => .bind_right fun _ =>
      .bind_left (h .expression)
  exact .bind_right fun _ => .ite (.refl _) (.bind_left element)

theorem hashElements_confined : (hashElements again).Confined (hashElements again') := by
  have further : (nextHashElement? again).Confined (nextHashElement? again') :=
    .bind_right fun _ => .ite (.bind_right fun _ => hashElement?_confined h) (.refl _)
  refine .bind (hashElement?_confined h) fun first => ?_
  cases first with
  | none => exact .refl _
  | some first => exact .bind_left (.collect further)

theorem hash_confined : (hash again).Confined (hash again') :=
  .bind_right fun _ => .bind_left (hashElements_confined h)

theorem atom_confined : (atom limit again).Confined (atom limit again') := by
  refine .bind_right fun t => ?_
  split
  · exact .refl _
  · exact array_confined h
  · exact hash_confined h
  · exact group_confined h
  · exact subroutineLiteral_confined h
  · exact .refl _

theorem trailer?_confined (base : Tree) :
    (trailer? again base).Confined (trailer? again' base) := by
  have subscripted : (subscript again base).Confined (subscript again' base) :=
    .bind_right fun _ => .bind_left (h .expression)
  have called : (call again base).Confined (call again' base) :=
    .bind_right fun _ => .bind_left (expressions_confined h _ _)
  refine .bind_right fun t => ?_
  split
  · exact .bind_left subscripted
  · exact .bind_left called
  · exact .refl _

theorem operand_confined : (operand limit again).Confined (operand limit again') :=
  .bind_right fun _ => .ite (.bind_right fun _ => .bind_left (h .operand))
    (.bind (atom_confined h) fun base => .iterate (trailer?_confined h) base)

theorem binary_confined : (binary limit again).Confined (binary limit again') :=
  climb_confined (operand_confined h) _ _

theorem assignment_confined : (assignment limit again).Confined (assignment limit again') :=
  .bind (binary_confined h) fun _ => .bind_right fun _ =>
    .ite (.ite (.bind_right fun _ => .bind_left (h .assignment)) (.refl _)) (.refl _)

theorem expression_confined : (expression limit again).Confined (expression limit again') :=
  .nested (assignment_confined h)

theorem guarded_confined : (guarded limit again).Confined (guarded limit again') :=
  .bind_right fun _ => .bind (h .expression) fun _ => .bind_left (block_confined h)

theorem elifClauses_confined : (elifClauses limit again).Confined (elifClauses limit again') := by
  have clause : (elifClause? limit again).Confined (elifClause? limit again') :=
    .bind_right fun _ => .ite
      (.bind (h .expression) fun _ => .bind_left (block_confined h)) (.refl _)
  exact .bind_right fun _ => .bind_left (.collect clause)

theorem elseBlock_confined : (elseBlock limit again).Confined (elseBlock limit again') :=
  .bind_right fun _ => .ite (.bind_left (block_confined h)) (.refl _)

theorem conditional_confined : (conditional limit again).Confined (conditional limit again') := by
  refine .bind (guarded_confined h) fun first => ?_
  cases first
  exact .bind (elifClauses_confined h) fun _ => .bind_left (elseBlock_confined h)

theorem iteration_confined : (iteration limit again).Confined (iteration limit again') :=
  .bind_right fun _ => .bind_right fun _ => .bind_right fun _ => .bind (h .expression) fun _ =>
    .bind_left (block_confined h)

theorem commanded_confined : (commanded again).Confined (commanded again') :=
  .bind_right fun _ => .bind_left (h .expression)

theorem returned_confined : (returned again).Confined (returned again') := by
  have rest : Parse.Confined (do
      let start ← advance
      if (← current).kind.endsReturn then return Tree.leaf start
      return Tree.node start [← again .expression]) (do
      let start ← advance
      if (← current).kind.endsReturn then return Tree.leaf start
      return Tree.node start [← again' .expression]) :=
    .bind_right fun _ => .bind_right fun _ => .ite (.refl _) (.bind_left (h .expression))
  exact .bind_right fun _ => .ite rest (.bind_right fun _ => rest)

theorem statement_confined : (statement limit again).Confined (statement limit again') := by
  refine .bind_right fun t => ?_
  split
  · exact .bind_right fun _ => .ite (expression_confined h) (subroutineDeclaration_confined h)
  · exact conditional_confined h
  · exact guarded_confined h
  · exact guarded_confined h
  · exact iteration_confined h
  · exact commanded_confined h
  · exact commanded_confined h
  · exact returned_confined h
  · exact expression_confined h

theorem rule_confined : (rule limit again).Confined (rule limit again')
  | .statement => statement_confined h
  | .expression => expression_confined h
  | .assignment => assignment_confined h
  | .operand => operand_confined h

end

/-- With room for more rules that wait, the rules do the same as with less, but where they were
refused for their depth. -/
theorem reading_confined (limit : Option Nat) {stack stack' : Nat} (less : stack ≤ stack') :
    (reading limit stack).Confined (reading limit stack') := by
  induction stack generalizing stack' with
  | zero => exact fun _ => .refuse _
  | succ stack ih =>
    obtain ⟨stack', rfl⟩ := Nat.exists_eq_add_one_of_ne_zero (Nat.ne_zero_of_lt less)
    exact rule_confined (ih (Nat.le_of_succ_le_succ less))

end Grammar

theorem Parse.programStatement?_confined {again again' : Grammar} (h : again.Confined again') :
    (programStatement? again).Confined (programStatement? again') :=
  .bind_right fun _ => .ite (.refl _) (.bind_left (h .statement))

end AresSyntax
