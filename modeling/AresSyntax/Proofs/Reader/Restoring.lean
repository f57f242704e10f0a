import AresSyntax.Grammar.Program
import AresSyntax.Proofs.Reader.Refusing

/-!
What a request leaves behind. A request that gives a result has closed all levels and subroutines
that it opened. One that fails leaves them open, at the token that it refused.

* `Reader.shift`: the reader behind its current token, also where the next one can not be read;
* `Reader.Onward`: the readers further on in the same tokens, at any place among the constructs;
* `Reader.Took`: those of them that got there by taking tokens;
* `Parse.Restores`: the requests that close what they open;
* `Grammar.reading_restores`, `Parse.program_restores`: all rules, and programs.
-/
namespace AresSyntax

/-- A place at least as deep as `c`, and in a subroutine if `c` is in one. -/
structure Context.Le (c c' : Context) : Prop where
  depth : c.depth ≤ c'.depth
  inside : c.inSubroutine = true → c'.inSubroutine = true

namespace Context.Le

theorem refl (c : Context) : c.Le c := ⟨Nat.le_refl _, id⟩

theorem trans {c c' c'' : Context} (h : c.Le c') (h' : c'.Le c'') : c.Le c'' :=
  ⟨Nat.le_trans h.depth h'.depth, fun inside => h'.inside (h.inside inside)⟩

theorem of_eq {c c' : Context} (h : c' = c) : c.Le c' := h ▸ .refl c

end Context.Le

namespace Reader

variable {r r' s : Reader}

/-- The reader behind the current token. Where nothing can be read for the lookahead, this stays
what it was. -/
def shift (r : Reader) : Reader :=
  { r with
    current := r.next
    next := r.stream.next.1.toOption.getD r.next
    stream := r.stream.next.2 }

/-- The reader at another place among the constructs. -/
def placed (c : Context) (r : Reader) : Reader :=
  { r with depth := c.depth, inSubroutine := c.inSubroutine }

@[simp] theorem context_shift (r : Reader) : r.shift.context = r.context := rfl

@[simp] theorem context_placed (c : Context) (r : Reader) : (r.placed c).context = c := rfl

theorem shift_of_advance {t : Token} (h : Parse.advance r = .ok t r') :
    t = r.current ∧ r' = r.shift := by
  obtain ⟨u, s, next, rfl, rfl⟩ := advance_eq_ok.1 h
  refine ⟨rfl, ?_⟩
  rw [shift, next]
  rfl

theorem shift_of_advance_error {f : ParseFault} (h : Parse.advance r = .error f r') :
    r' = r.shift ∧ r'.next = r.next ∧ ∃ g, f = .reading g ∧ r.stream.next.1 = .error g := by
  unfold Parse.advance at h
  split at h
  · cases h
  · rename_i g s next
    cases h
    refine ⟨?_, rfl, g, rfl, by rw [next]⟩
    rw [shift, next]
    rfl

/-- The readers further on in the tokens of `r`, at any place among the constructs. -/
inductive Onward (r : Reader) : Reader → Prop
  | here (c : Context) : Onward r (r.placed c)
  | shift {s : Reader} (before : Onward r s) : Onward r s.shift

namespace Onward

theorem refl (r : Reader) : r.Onward r := .here r.context

theorem place (h : r.Onward s) (c : Context) : r.Onward (s.placed c) := by
  induction h with
  | here c' => exact .here c
  | shift _ ih => exact .shift ih

theorem trans (h : r.Onward s) (h' : s.Onward r') : r.Onward r' := by
  induction h' with
  | here c => exact h.place c
  | shift _ ih => exact .shift ih

/-- The readers of a text stay so, also behind what can not be read: behind the end token there is
no fault, so where there is one neither of the two tokens is the end. -/
theorem regular (h : r.Onward r') (hr : r.Regular) : r'.Regular := by
  induction h with
  | here c => exact ⟨hr.pending, hr.next, hr.current⟩
  | @shift s _ ih =>
    cases taken : Parse.advance s with
    | ok t s' =>
      obtain ⟨-, rfl⟩ := shift_of_advance taken
      exact (advance_spec ih.at taken).1.regular
    | error f s' =>
      obtain ⟨rfl, next, -⟩ := shift_of_advance_error taken
      have other : s.next.kind ≠ .endOfText := by
        intro last
        unfold Parse.advance at taken
        rw [ih.next last] at taken
        cases taken
      have more : s.stream.next = (s.stream.next.1, s.shift.stream) := rfl
      refine ⟨?_, ?_, ?_⟩
      · intro t ht
        exact ih.pending t (TokenStream.next_pending_subset more _ ht)
      · intro last
        exact absurd (next ▸ last) other
      · intro last
        exact absurd last other

end Onward

/-- The readers behind some more tokens of `r`, at any place among the constructs. -/
inductive Took (r : Reader) : Reader → Prop
  | here (c : Context) : Took r (r.placed c)
  | next {s s' : Reader} {t : Token} (before : Took r s) (taken : Parse.advance s = .ok t s') :
      Took r s'

namespace Took

theorem refl (r : Reader) : r.Took r := .here r.context

theorem place (h : r.Took s) (c : Context) : r.Took (s.placed c) := by
  induction h with
  | here c' => exact .here c
  | next _ taken ih =>
    obtain ⟨u, more, next, rfl, rfl⟩ := advance_eq_ok.1 taken
    exact .next ih (advance_eq_ok.2 ⟨u, more, next, rfl, rfl⟩)

theorem trans (h : r.Took s) (h' : s.Took r') : r.Took r' := by
  induction h' with
  | here c => exact h.place c
  | next _ taken ih => exact .next ih taken

theorem onward (h : r.Took s) : r.Onward s := by
  induction h with
  | here c => exact .here c
  | next _ taken ih =>
    obtain ⟨-, rfl⟩ := shift_of_advance taken
    exact .shift ih

end Took
end Reader

/-- What a request from `r` to `r'` fails with: it refuses the token that is current then, or meets
a fault of the stream on the way. -/
def ParseFault.Met (r r' : Reader) : ParseFault → Prop
  | grammar _ found => r'.current = found
  | reading f => ∃ s, r.Onward s ∧ s.stream.next.1 = .error f

theorem ParseFault.Met.onward {r s r' : Reader} {f : ParseFault} (h : f.Met s r')
    (on : r.Onward s) : f.Met r r' := by
  cases f with
  | grammar e found => exact h
  | reading f =>
    obtain ⟨q, later, fault⟩ := h
    exact ⟨q, on.trans later, fault⟩

namespace Parse

variable {α β : Type}

/-- Holds for requests that close the levels and the subroutines that they open, when they give a
result. Where they fail, no level and no subroutine around them is closed. -/
structure Restores (p : Parse α) : Prop where
  result : ∀ {r a r'}, p r = .ok a r' → r.Took r' ∧ r'.context = r.context
  fault : ∀ {r f r'}, p r = .error f r' → r.Onward r' ∧ r.context.Le r'.context ∧ f.Met r r'

namespace Restores

theorem pure (a : α) : (Pure.pure a : Parse α).Restores where
  result h := by
    obtain ⟨-, rfl⟩ := pure_eq_ok.1 h
    exact ⟨.refl _, rfl⟩
  fault h := absurd h not_pure_fails

theorem refuse (e : GrammarError) : (Parse.refuse e : Parse α).Restores where
  result h := (refuse_eq_ok.1 h).elim
  fault h := by
    cases h
    exact ⟨.refl _, .refl _, rfl⟩

/-- Looking at the reader changes nothing. -/
theorem look {look : Reader → α} : Restores fun r => .ok (look r) r where
  result h := by
    cases h
    exact ⟨.refl _, rfl⟩
  fault h := by cases h

theorem bind {p : Parse α} {q : α → Parse β} (hp : p.Restores) (hq : ∀ a, (q a).Restores) :
    (p >>= q).Restores where
  result h := by
    obtain ⟨a, s, first, second⟩ := bind_eq_ok.1 h
    obtain ⟨on, context⟩ := hp.result first
    obtain ⟨on', context'⟩ := (hq a).result second
    exact ⟨on.trans on', context'.trans context⟩
  fault h := by
    obtain failed | ⟨a, s, first, second⟩ := bind_eq_error.1 h
    · exact hp.fault failed
    · obtain ⟨on, context⟩ := hp.result first
      obtain ⟨on', deeper, met⟩ := (hq a).fault second
      exact ⟨on.onward.trans on', (Context.Le.of_eq context).trans deeper, met.onward on.onward⟩

theorem ite {c : Prop} [Decidable c] {p q : Parse α} (hp : p.Restores) (hq : q.Restores) :
    (if c then p else q).Restores := by
  split
  · exact hp
  · exact hq

theorem current : Parse.current.Restores := look

theorem get : (MonadState.get : Parse Reader).Restores := look

theorem check (k : Kind) : (Parse.check k).Restores := look

theorem advance : Parse.advance.Restores where
  result h := by
    obtain ⟨-, rfl⟩ := Reader.shift_of_advance h
    exact ⟨.next (.refl _) h, rfl⟩
  fault h := by
    obtain ⟨rfl, -, g, rfl, fault⟩ := Reader.shift_of_advance_error h
    exact ⟨.shift (.refl _), .refl _, _, .refl _, fault⟩

theorem accept (k : Kind) : (Parse.accept k).Restores :=
  .bind (.check k) fun _ => .ite (.bind .advance fun _ => .pure _) (.pure _)

theorem expect (k : Kind) (e : Expectation) : (Parse.expect k e).Restores :=
  .bind (.check k) fun _ => .ite .advance (.refuse _)

theorem iterateWithin {step : α → Parse (Option α)} (h : ∀ a, (step a).Restores)
    (os : List Outcome) (a : α) : (Parse.iterateWithin step os a).Restores := by
  induction os generalizing a with
  | nil => exact .bind (h a) fun _ => .pure _
  | cons o os ih =>
    refine .bind (h a) fun b => ?_
    cases b with
    | none => exact .pure a
    | some b => exact ih b

theorem collectWithin {step : Parse (Option α)} (h : step.Restores) (os : List Outcome) :
    (Parse.collectWithin step os).Restores := by
  induction os with
  | nil => exact .bind h fun _ => .pure _
  | cons o os ih =>
    refine .bind h fun a => ?_
    cases a with
    | none => exact .pure []
    | some a => exact .bind ih fun _ => .pure _

/-- A request that is told by the reader it starts from. -/
theorem told {p : Reader → Parse α} (h : ∀ r, (p r).Restores) : Restores fun r => p r r where
  result ran := (h _).result ran
  fault ran := (h _).fault ran

theorem iterate {step : α → Parse (Option α)} (h : ∀ a, (step a).Restores) (a : α) :
    (Parse.iterate step a).Restores :=
  .told (p := fun r => Parse.iterateWithin step r.ahead a) fun r => .iterateWithin h r.ahead a

theorem collect {step : Parse (Option α)} (h : step.Restores) : (Parse.collect step).Restores :=
  .told (p := fun r => Parse.collectWithin step r.ahead) fun r => .collectWithin h r.ahead

theorem skipNewlines : Parse.skipNewlines.Restores :=
  .iterate (fun _ => .bind (.accept _) fun _ => .pure _) ()

theorem advanceLines : Parse.advanceLines.Restores :=
  .bind .advance fun _ => .bind .skipNewlines fun _ => .pure _

theorem commaSeparated {item : Parse α} (h : item.Restores) :
    (Parse.commaSeparated item).Restores := by
  have further : Restores (do
      if ← Parse.check (.mark .comma) then
        let _ ← Parse.advanceLines
        return some (← item)
      else return none) :=
    .bind (.check _) fun _ =>
      .ite (.bind .advanceLines fun _ => .bind h fun _ => .pure _) (.pure _)
  exact .bind h fun _ => .bind (.collect further) fun _ => .pure _

/-- A level is closed behind what is read in it, and stays open where this fails. -/
theorem nested {limit : Option Nat} {body : Parse α} (h : body.Restores) :
    (Parse.nested limit body).Restores where
  result {r a r'} ran := by
    obtain ⟨-, s, inner, rfl⟩ := nested_eq_ok.1 ran
    obtain ⟨on, context⟩ := h.result inner
    have depth : s.depth = r.depth + 1 := congrArg Context.depth context
    have inside : s.inSubroutine = r.inSubroutine := congrArg Context.inSubroutine context
    have entered : r.Took (r.placed r.context.deeper) := .here _
    refine ⟨(entered.trans on).place ⟨s.depth - 1, s.inSubroutine⟩, ?_⟩
    simp only [Reader.context, depth, inside, Nat.add_sub_cancel]
  fault {r f r'} ran := by
    have deeper : r.context.Le r.context.deeper := ⟨Nat.le_succ _, id⟩
    have entered : r.Onward (r.placed r.context.deeper) := .here _
    simp only [Parse.nested, modify_bind, get_bind] at ran
    split at ran
    · obtain refused | ⟨_, _, given, _⟩ := bind_eq_error.1 ran
      · cases refused
        exact ⟨entered, deeper, rfl⟩
      · exact (refuse_eq_ok.1 given).elim
    · obtain failed | ⟨_, _, _, left⟩ := bind_eq_error.1 ran
      · obtain ⟨on, further, met⟩ := h.fault failed
        exact ⟨entered.trans on, deeper.trans further, met.onward entered⟩
      · cases left

/-- The mark of a subroutine is taken back behind its body, and stays where this fails. -/
theorem inSubroutine {body : Parse α} (h : body.Restores) :
    (Parse.inSubroutine body).Restores where
  result {r a r'} ran := by
    obtain ⟨s, inner, rfl⟩ := inSubroutine_eq_ok.1 ran
    obtain ⟨on, context⟩ := h.result inner
    have depth : s.depth = r.depth := congrArg Context.depth context
    have entered : r.Took (r.placed r.context.body) := .here _
    refine ⟨(entered.trans on).place ⟨s.depth, r.inSubroutine⟩, ?_⟩
    simp only [Reader.context, depth]
  fault {r f r'} ran := by
    obtain ⟨on, further, met⟩ := h.fault (inSubroutine_fails ran)
    have marked : r.context.Le r.context.body := ⟨Nat.le_refl _, fun _ => rfl⟩
    have entered : r.Onward (r.placed r.context.body) := .here _
    exact ⟨entered.trans on, marked.trans further, met.onward entered⟩

end Restores
end Parse

/-! ## The rules of the grammar -/

namespace Grammar
open Parse

variable {limit : Option Nat} {again : Grammar}

/-- Holds for grammars whose rules close what they open. -/
def Restoring (again : Grammar) : Prop := ∀ g, (again g).Restores

theorem separator_restores {otherwise : Parse Unit} (h : otherwise.Restores) :
    (separator otherwise).Restores :=
  .bind (.check _) fun _ => .ite (.bind .advanceLines fun _ => .pure _)
    (.bind (.check _) fun _ => .ite .skipNewlines h)

theorem blockSeparator_restores : blockSeparator.Restores :=
  separator_restores (.bind (.check _) fun _ => .ite (.pure _) (.refuse _))

theorem blockStatement?_restores (h : again.Restoring) : (blockStatement? again).Restores :=
  .bind .current fun _ => .ite (.pure _)
    (.bind (h .statement) fun _ => .bind blockSeparator_restores fun _ => .pure _)

theorem block_restores (h : again.Restoring) : (block limit again).Restores :=
  .bind .skipNewlines fun _ => .bind (.expect _ _) fun _ => .bind .skipNewlines fun _ =>
    .bind (.nested (.collect (blockStatement?_restores h))) fun _ =>
    .bind (.expect _ _) fun _ => .pure _

theorem identifier_restores (e : Expectation) : (identifier e).Restores :=
  .bind (.expect _ _) fun _ => .pure _

theorem parameters_restores : parameters.Restores := by
  refine .bind (.expect _ _) fun opening => .bind .skipNewlines fun _ =>
    .bind (.check _) fun _ => ?_
  have rest (names : List Tree) : Restores (do
      skipNewlines
      let _ ← expect (.mark .closeParen) .closeParameters
      return Tree.node (Label.subParams.token opening.location) names) :=
    .bind .skipNewlines fun _ => .bind (.expect _ _) fun _ => .pure _
  exact .ite (.bind (.pure []) rest) (.bind (.commaSeparated (identifier_restores _)) rest)

theorem parametersAndBody_restores (h : again.Restoring) :
    (parametersAndBody limit again).Restores :=
  .bind parameters_restores fun _ => .bind (.inSubroutine (block_restores h)) fun _ => .pure _

theorem subroutineDeclaration_restores (h : again.Restoring) :
    (subroutineDeclaration limit again).Restores :=
  .bind .advance fun _ => .bind (identifier_restores _) fun _ =>
    .bind (parametersAndBody_restores h) fun _ => .pure _

theorem subroutineLiteral_restores (h : again.Restoring) :
    (subroutineLiteral limit again).Restores :=
  .bind .advance fun _ => .bind (parametersAndBody_restores h) fun _ => .pure _

theorem group_restores (h : again.Restoring) : (group again).Restores :=
  .bind .advanceLines fun _ => .bind (h .expression) fun _ => .bind .skipNewlines fun _ =>
    .bind (.expect _ _) fun _ => .pure _

theorem expressions_restores (h : again.Restoring) (closing : Mark) (e : Expectation) :
    (expressions again closing e).Restores := by
  have rest (items : List Tree) : Restores (do
      skipNewlines
      let _ ← expect (.mark closing) e
      return items) :=
    .bind .skipNewlines fun _ => .bind (.expect _ _) fun _ => .pure _
  exact .bind (.check _) fun _ =>
    .ite (.bind (.pure []) rest) (.bind (.commaSeparated (h .expression)) rest)

theorem array_restores (h : again.Restoring) : (array again).Restores :=
  .bind .advanceLines fun _ => .bind (expressions_restores h _ _) fun _ => .pure _

theorem hashElement?_restores (h : again.Restoring) : (hashElement? again).Restores := by
  have element : (hashElement again).Restores :=
    .bind .current fun _ => .bind (h .expression) fun _ => .bind (.expect _ _) fun _ =>
      .bind .skipNewlines fun _ => .bind (h .expression) fun _ => .pure _
  exact .bind (.check _) fun _ => .ite (.pure _) (.bind element fun _ => .pure _)

theorem hashElements_restores (h : again.Restoring) : (hashElements again).Restores := by
  have further : (nextHashElement? again).Restores :=
    .bind (.check _) fun _ =>
      .ite (.bind .advanceLines fun _ => hashElement?_restores h) (.pure _)
  refine .bind (hashElement?_restores h) fun first => ?_
  cases first with
  | none => exact .pure _
  | some first => exact .bind (.collect further) fun _ => .pure _

theorem hash_restores (h : again.Restoring) : (hash again).Restores :=
  .bind .advanceLines fun _ => .bind (hashElements_restores h) fun _ =>
    .bind .skipNewlines fun _ => .bind (.expect _ _) fun _ => .pure _

theorem atom_restores (h : again.Restoring) : (atom limit again).Restores := by
  refine .bind .current fun t => ?_
  split
  · exact .bind .advance fun _ => .pure _
  · exact array_restores h
  · exact hash_restores h
  · exact group_restores h
  · exact subroutineLiteral_restores h
  · exact .refuse _

theorem trailer?_restores (h : again.Restoring) (base : Tree) :
    (trailer? again base).Restores := by
  have subscripted : (subscript again base).Restores :=
    .bind .advanceLines fun _ => .bind (h .expression) fun _ => .bind .skipNewlines fun _ =>
      .bind (.expect _ _) fun _ => .pure _
  have called : (call again base).Restores :=
    .bind .advanceLines fun _ => .bind (expressions_restores h _ _) fun _ => .pure _
  refine .bind .current fun t => ?_
  split
  · exact .bind subscripted fun _ => .pure _
  · exact .bind called fun _ => .pure _
  · exact .pure _

theorem operand_restores (h : again.Restoring) : (operand limit again).Restores :=
  .bind .current fun _ => .ite
    (.bind .advanceLines fun _ => .bind (h .operand) fun _ => .pure _)
    (.bind (atom_restores h) fun base => .iterate (trailer?_restores h) base)

theorem fold?_restores {least : Nat} {right : Nat → Parse Tree} (h : ∀ n, (right n).Restores)
    (left : Tree) : (fold? least right left).Restores :=
  .bind .current fun _ => .ite
    (.bind .advanceLines fun _ => .bind (h _) fun _ => .pure _) (.pure _)

theorem climb_restores {operand : Parse Tree} (h : operand.Restores) (levels least : Nat) :
    (climb operand levels least).Restores := by
  induction levels generalizing least with
  | zero => exact h
  | succ levels ih => exact .bind h fun left => .iterate (fold?_restores ih) left

theorem assignment_restores (h : again.Restoring) : (assignment limit again).Restores :=
  .bind (climb_restores (operand_restores h) _ _) fun _ => .bind .current fun _ =>
    .ite (.ite (.bind .advanceLines fun _ => .bind (h .assignment) fun _ => .pure _) (.refuse _))
      (.pure _)

theorem expression_restores (h : again.Restoring) : (expression limit again).Restores :=
  .nested (assignment_restores h)

theorem guarded_restores (h : again.Restoring) : (guarded limit again).Restores :=
  .bind .advance fun _ => .bind (h .expression) fun _ => .bind (block_restores h) fun _ => .pure _

theorem elifClauses_restores (h : again.Restoring) : (elifClauses limit again).Restores := by
  have clause : (elifClause? limit again).Restores :=
    .bind (.accept _) fun _ => .ite
      (.bind (h .expression) fun _ => .bind (block_restores h) fun _ => .pure _) (.pure _)
  exact .bind .current fun _ => .bind (.collect clause) fun _ => .pure _

theorem elseBlock_restores (h : again.Restoring) : (elseBlock limit again).Restores :=
  .bind (.accept _) fun _ => .ite (.bind (block_restores h) fun _ => .pure _) (.pure _)

theorem conditional_restores (h : again.Restoring) : (conditional limit again).Restores := by
  refine .bind (guarded_restores h) fun first => ?_
  cases first
  exact .bind (elifClauses_restores h) fun _ => .bind (elseBlock_restores h) fun _ => .pure _

theorem iteration_restores (h : again.Restoring) : (iteration limit again).Restores :=
  .bind .advance fun _ => .bind (identifier_restores _) fun _ => .bind (.expect _ _) fun _ =>
    .bind (h .expression) fun _ => .bind (block_restores h) fun _ => .pure _

theorem commanded_restores (h : again.Restoring) : (commanded again).Restores :=
  .bind .advance fun _ => .bind (h .expression) fun _ => .pure _

theorem returned_restores (h : again.Restoring) : (returned again).Restores := by
  have rest : Restores (do
      let start ← advance
      if (← current).kind.endsReturn then return Tree.leaf start
      return Tree.node start [← again .expression]) :=
    .bind .advance fun _ => .bind .current fun _ => .ite (.pure _)
      (.bind (h .expression) fun _ => .pure _)
  exact .bind .get fun _ => .ite rest (.bind (.refuse _) fun _ => rest)

theorem statement_restores (h : again.Restoring) : (statement limit again).Restores := by
  refine .bind .current fun t => ?_
  split
  · exact .bind .get fun _ => .ite (expression_restores h) (subroutineDeclaration_restores h)
  · exact conditional_restores h
  · exact guarded_restores h
  · exact guarded_restores h
  · exact iteration_restores h
  · exact commanded_restores h
  · exact commanded_restores h
  · exact returned_restores h
  · exact expression_restores h

theorem rule_restores (h : again.Restoring) : (rule limit again).Restoring
  | .statement => statement_restores h
  | .expression => expression_restores h
  | .assignment => assignment_restores h
  | .operand => operand_restores h

/-- Every rule closes what it opens, no matter how many rules may wait. -/
theorem reading_restores (limit : Option Nat) (stack : Nat) : (reading limit stack).Restoring := by
  induction stack with
  | zero => exact fun _ => .refuse _
  | succ stack ih => exact rule_restores ih

end Grammar

namespace Parse

theorem program_restores (limits : Limits) : (program limits).Restores := by
  have statement (stack : Nat) :
      (programStatement? (Grammar.reading limits.nesting stack)).Restores :=
    .bind (.check _) fun _ => .ite (.pure _)
      (.bind (Grammar.reading_restores _ stack .statement) fun _ =>
        .bind (Grammar.separator_restores (.bind (.expect _ _) fun _ => .pure _)) fun _ => .pure _)
  exact .bind .current fun _ => .bind .get fun _ => .bind .skipNewlines fun _ =>
    .bind (.collect (statement _)) fun _ => .pure _

end Parse
end AresSyntax
