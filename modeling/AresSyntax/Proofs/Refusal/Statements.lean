import AresSyntax.Proofs.Refusal.Expressions
import AresSyntax.Proofs.Soundness.Statements

/-!
Where statements and programs refuse a token, they can be completed.

* `statement_reads`: each kind of statement;
* `reading_mending`: the rules by way of each other, for any number of rules that may wait;
* `program_mends`: what stands before a refused token is the beginning of a program.
-/
namespace AresSyntax
namespace Grammar
open Parse AresSyntax.Span

variable {limit : Option Nat} {again : Grammar} {c : Context} {r : Reader}

/-- A word of kind `k`, a condition and a block. -/
def guard (limit : Option Nat) (k : Kind) (c : Context) : Span :=
  row [sign k, phrase limit .expression c, phrase limit .block c]

theorem guard_grafts {k : Kind} {w : Token} {ts ts₁ rest : List Token} {e b : Tree}
    (start : w.kind = k) (condition : Derives limit .expression c ts ts₁ [e])
    (body : Derives limit .block c ts₁ rest [b]) : (guard limit k c).Grafts (w :: ts) rest :=
  (Grafts.sign start).cons ((Grafts.phrase condition).cons ((Grafts.phrase body).cons .nil))

/-- A word, a condition and a block, behind which there is nothing of them. -/
theorem guarded_breaks (ha : again.Sound limit) (hm : again.Mending limit) {k : Kind}
    (hr : r.At c) (start : r.current.kind = k) (present : k ≠ .endOfText) :
    Breaks limit c (guard limit k c) (guarded limit again) r := by
  have spans : InRow limit c [sign k, phrase limit .expression c, phrase limit .block c]
      (guarded limit again) r :=
    .bind (advance_reads hr start present) fun _ _ h₁ =>
      .bind (hm .expression h₁) fun _ _ h₂ => .bind (block_reads ha hm h₂) fun _ _ _ => .pure
  exact spans.breaks (by simp) fun _ _ _ _ held => held

theorem guarded_reads (ha : again.Sound limit) (hm : again.Mending limit) {k : Kind}
    (hr : r.At c) (start : r.current.kind = k) (present : k ≠ .endOfText) :
    Reads limit c (guard limit k c) (guarded limit again) r where
  takes := by
    intro u r' taken
    obtain ⟨hr', ts, ts₁, e, b, -, take, condition, body⟩ :=
      guarded_spec ha hr (start ▸ present) taken
    exact ⟨hr', take ▸ guard_grafts start condition body⟩
  breaks := guarded_breaks ha hm hr start present

/-- What follows a word, if the word is there. -/
theorem accepted_breaks {α : Type} {k : Kind} {body : Parse α} {a : α} {Ds : List Span}
    (present : k ≠ .endOfText) (inner : ∀ ⦃s⦄, s.At c → Breaks limit c (row Ds) body s)
    (hr : r.At c) : Breaks limit c (row (sign k :: Ds))
      (do if ← accept k then body else return a) r := by
  intro e t r' refused other
  obtain refused | ⟨found, s, word, refused⟩ := bind_eq_error.1 refused
  · exact absurd refused not_accept_refuses
  · obtain ⟨hs, ⟨rfl, w, start, take⟩ | ⟨rfl, -⟩⟩ := accept_spec hr present word
    · exact Mends.after (take ▸ .sign start) (inner hs refused other)
    · exact absurd refused not_pure_fails

theorem elifClause?_breaks (ha : again.Sound limit) (hm : again.Mending limit) (hr : r.At c) :
    Breaks limit c (guard limit (.keyword .elifWord) c) (elifClause? limit again) r := by
  refine accepted_breaks (by decide) ?_ hr
  intro s hs
  have spans : InRow limit c [phrase limit .expression c, phrase limit .block c]
      (do
        let condition ← again .expression
        let body ← block limit again
        return some [condition, body]) s :=
    .bind (hm .expression hs) fun _ _ h₁ => .bind (block_reads ha hm h₁) fun _ _ _ => .pure
  exact spans (by simp)

theorem elifClauses_reads (ha : again.Sound limit) (hm : again.Mending limit) (hr : r.At c) :
    Reads limit c (phrases limit .clauses c) (elifClauses limit again) r where
  takes := by
    intro u r' taken
    simp only [elifClauses, current_bind, bind_eq_ok, pure_eq_ok] at taken
    obtain ⟨cs, s, taken, -, rfl⟩ := taken
    obtain ⟨hs, clauses⟩ := clauses_spec ha hr taken
    exact ⟨hs, .phrases clauses⟩
  breaks := by
    have clauses : Breaks limit c (phrases limit .clauses c)
        (collect (elifClause? limit again)) r := by
      refine collect_breaks (E := guard limit (.keyword .elifWord) c) ?_ ?_ ?_ hr
      · intro bs s s' hs taken
        obtain ⟨⟨⟩, -⟩ | ⟨w, ts, ts₁, e, b, -, hs', start, take, condition, body⟩ :=
          elifClause?_spec ha hs taken
        exact .inl ⟨hs', take ▸ guard_grafts start condition body⟩
      · intro s hs e t s' refused other
        refine (elifClause?_breaks ha hm hs refused other).imp ?_
        rintro - _ _ - ⟨_, ⟨w, start, rfl⟩, _, ⟨e, condition⟩, _, ⟨b, body⟩, rfl⟩
        exact ⟨_, .nextClause start condition body .noClause⟩
      · rintro _ _ _ ⟨_, ⟨w, start, rfl⟩, _, ⟨e, condition⟩, _, ⟨b, body⟩, rfl⟩ ⟨cs, others⟩
        exact ⟨_, .nextClause start condition body others⟩
    have spans : InRow limit c [phrases limit .clauses c] (elifClauses limit again) r :=
      .current (.last clauses)
    refine spans.breaks (by simp) ?_
    rintro - _ _ - ⟨_, clauses, rfl⟩
    exact clauses

theorem elseBlock_breaks (ha : again.Sound limit) (hm : again.Mending limit) (hr : r.At c) :
    Breaks limit c (phrases limit .otherwise c) (elseBlock limit again) r := by
  intro e t r' refused other
  have word : Breaks limit c (row [sign (.keyword .elseWord), phrase limit .block c])
      (elseBlock limit again) r :=
    accepted_breaks (by decide) (fun _ hs =>
      InRow.last (f := fun b => [b]) (block_reads ha hm hs).breaks (by simp)) hr
  refine (word refused other).imp ?_
  rintro - _ _ - ⟨_, ⟨w, start, rfl⟩, _, ⟨b, body⟩, rfl⟩
  exact ⟨_, .otherwise start body⟩

theorem conditional_breaks (ha : again.Sound limit) (hm : again.Mending limit) (hr : r.At c)
    (start : r.current.kind = .keyword .ifWord) :
    Breaks limit c (phrase limit .statement c) (conditional limit again) r := by
  have spans : InRow limit c [guard limit (.keyword .ifWord) c, phrases limit .clauses c,
      phrases limit .otherwise c] (conditional limit again) r := by
    refine .bind (guarded_reads ha hm hr start (by decide)) fun u _ h₁ => ?_
    cases u with
    | node start first =>
      exact .bind (elifClauses_reads ha hm h₁) fun _ _ h₂ => .last (elseBlock_breaks ha hm h₂)
  refine spans.breaks (by simp) ?_
  rintro - _ _ some ⟨_, ⟨_, ⟨w, start, rfl⟩, _, ⟨e, condition⟩, _, ⟨b, body⟩, rfl⟩, _,
    ⟨cs, further⟩, _, ⟨os, last⟩, rfl⟩
  have behind := last.suffix.trans further.suffix
  obtain ⟨x, ts, rfl⟩ := List.exists_cons_of_ne_nil fun none =>
    some (List.suffix_nil.1 (none ▸ behind))
  exact ⟨_, .conditional start condition body further last⟩

theorem loop_breaks (ha : again.Sound limit) (hm : again.Mending limit) {k : Kind} (hr : r.At c)
    (start : r.current.kind = k) (word : k = .keyword .whileWord ∨ k = .keyword .untilWord) :
    Breaks limit c (phrase limit .statement c) (guarded limit again) r := by
  intro e t r' refused other
  have present : k ≠ .endOfText := by
    rintro rfl
    simp at word
  refine (guarded_breaks ha hm hr start present refused other).imp ?_
  rintro - _ _ - ⟨_, ⟨w, rfl, rfl⟩, _, ⟨e, condition⟩, _, ⟨b, body⟩, rfl⟩
  exact ⟨_, .loop word condition body⟩

theorem iteration_breaks (ha : again.Sound limit) (hm : again.Mending limit) (hr : r.At c)
    (start : r.current.kind = .keyword .forWord) :
    Breaks limit c (phrase limit .statement c) (iteration limit again) r := by
  have spans : InRow limit c [sign (.keyword .forWord), phrase limit .name c,
      sign (.keyword .inWord), phrase limit .expression c, phrase limit .block c]
      (iteration limit again) r :=
    .bind (advance_reads hr start (by decide)) fun _ _ h₁ =>
      .bind (identifier_reads h₁) fun _ _ h₂ =>
        .bind (expect_reads h₂ (by decide) (by simp)) fun _ _ h₃ =>
          .bind (hm .expression h₃) fun _ _ h₄ =>
            .bind (block_reads ha hm h₄) fun _ _ _ => .pure
  refine spans.breaks (by simp [fillable_name]) ?_
  rintro - _ _ - ⟨_, ⟨w, start, rfl⟩, _, ⟨n, name⟩, _, ⟨i, inWord, rfl⟩, _, ⟨e, range⟩, _,
    ⟨b, body⟩, rfl⟩
  cases name with
  | name ident => exact ⟨_, .iteration start ident inWord range body⟩

theorem commanded_breaks (hm : again.Mending limit) {k : Kind} (hr : r.At c)
    (start : r.current.kind = k) (word : k = .keyword .importWord ∨ k = .keyword .debugWord) :
    Breaks limit c (phrase limit .statement c) (commanded again) r := by
  have present : k ≠ .endOfText := by
    rintro rfl
    simp at word
  have spans : InRow limit c [sign k, phrase limit .expression c] (commanded again) r :=
    .bind (advance_reads hr start present) fun _ _ h₁ => .last (hm .expression h₁).breaks
  refine spans.breaks (by simp) ?_
  rintro - _ _ - ⟨_, ⟨w, rfl, rfl⟩, _, ⟨e, value⟩, rfl⟩
  exact ⟨_, .command word value⟩

theorem fillable_statement : (phrase limit .statement c).Fillable limit c := by
  refine (fillable_expression limit c).imp ?_
  rintro - _ _ ⟨u, value⟩
  exact ⟨u, .value value⟩

/-- Where no subroutine can be left, another statement can stand. -/
theorem returned_breaks (hm : again.Mending limit) (hr : r.At c)
    (start : r.current.kind = .keyword .returnWord) :
    Breaks limit c (phrase limit .statement c) (returned again) r := by
  intro e t r' refused other
  by_cases inside : r.inSubroutine = true
  · have place : c.inSubroutine = true := hr.context ▸ inside
    simp only [returned, get_bind, inside, if_true] at refused
    have spans : InRow limit c [sign (.keyword .returnWord), phrase limit .expression c]
        (do
          let start ← advance
          if (← current).kind.endsReturn then return .leaf start
          return Tree.node start [← again .expression]) r := by
      refine .bind (advance_reads hr start (by decide)) fun _ s h₁ => .current ?_
      split
      · exact .pure
      · exact .bind (hm .expression h₁) fun _ _ _ => .pure
    refine (spans (by simp) refused other).imp ?_
    rintro - _ _ - ⟨_, ⟨w, start, rfl⟩, _, ⟨e, value⟩, rfl⟩
    exact ⟨_, .leaveWith place start value⟩
  · have outside : r = r' := by
      rw [Bool.not_eq_true] at inside
      simp only [returned, get_bind, inside, Bool.false_eq_true, if_false] at refused
      obtain refused | ⟨_, _, given, -⟩ := bind_eq_error.1 refused
      · exact (refuse_eq_error.1 refused).2.2
      · exact (refuse_eq_ok.1 given).elim
    obtain rfl := outside
    exact .of_fillable hr fillable_statement

theorem statement_reads (ha : again.Sound limit) (hm : again.Mending limit) (hr : r.At c) :
    Reads limit c (phrase limit .statement c) (statement limit again) r where
  takes := (statement_yields ha).takes hr
  breaks := by
    have whole : Breaks limit c (phrase limit .statement c) (expression limit again) r := by
      intro e t r' refused other
      refine ((expression_reads ha hm hr).breaks refused other).imp ?_
      rintro - _ _ - ⟨u, value⟩
      exact ⟨u, .value value⟩
    intro e t r' refused other
    simp only [statement, current_bind] at refused
    generalize kind : r.current.kind = k at refused
    split at refused
    case h_1 =>
      rw [get_bind] at refused
      split at refused
      · exact whole refused other
      · exact subroutineDeclaration_breaks ha hm hr kind refused other
    case h_2 => exact conditional_breaks ha hm hr kind refused other
    case h_3 => exact loop_breaks ha hm hr kind (.inl rfl) refused other
    case h_4 => exact loop_breaks ha hm hr kind (.inr rfl) refused other
    case h_5 => exact iteration_breaks ha hm hr kind refused other
    case h_6 => exact commanded_breaks hm hr kind (.inl rfl) refused other
    case h_7 => exact commanded_breaks hm hr kind (.inr rfl) refused other
    case h_8 => exact returned_breaks hm hr kind refused other
    case h_9 => exact whole refused other

theorem rule_mending (ha : again.Sound limit) (hm : again.Mending limit) :
    (rule limit again).Mending limit
  | .statement, _, _, hr => statement_reads ha hm hr
  | .expression, _, _, hr => expression_reads ha hm hr
  | .assignment, _, _, hr => assignment_reads ha hm hr
  | .operand, _, _, hr => operand_reads ha hm hr

/-- Whatever rule refuses a token, what it has begun can be completed, no matter how many rules may
wait. -/
theorem reading_mending (stack : Nat) : (reading limit stack).Mending limit := by
  induction stack with
  | zero =>
    intro g c r hr
    constructor
    · intro u r' taken
      exact (refuse_eq_ok.1 taken).elim
    · intro e t r' refused other
      exact absurd (refuse_eq_error.1 refused).1.symm other
  | succ stack ih => exact rule_mending (reading_sound stack) ih

end Grammar

namespace Parse
open Grammar AresSyntax.Span

variable {limit : Option Nat} {again : Grammar} {c : Context} {r : Reader}

theorem programStatements_breaks (ha : again.Sound limit) (hm : again.Mending limit)
    (hr : r.At c) : Breaks limit c (phrases limit .statements c)
      (collect (programStatement? again)) r := by
  refine statements_break ?_ ?_ hr
  · intro u s s' hs h
    simp only [programStatement?, check_bind, decide_eq_true_eq, ite_eq_ok, bind_eq_ok,
      pure_eq_ok] at h
    obtain ⟨-, ⟨⟩, -⟩ | ⟨-, v, s₁, first, _, s₂, second, same, rfl⟩ := h
    cases same
    obtain ⟨h₁, derived⟩ := ha .statement hs first
    obtain ⟨h₂, separator⟩ | closing := separator_spec h₁ second
    · exact .inl ⟨h₂, _, derived, separator⟩
    · simp only [bind_eq_ok, pure_eq_ok] at closing
      obtain ⟨x, s₃, ending, -, rfl⟩ := closing
      obtain ⟨last, taken⟩ := expect_eq_ok.1 ending
      rw [Reader.advance_at_end h₁.regular last] at taken
      cases taken
      refine .inr ⟨s₁, ?_⟩
      simp [programStatement?, last]
  · intro s hs e t s' refused other
    simp only [programStatement?, check_bind, decide_eq_true_eq] at refused
    split at refused
    · exact absurd refused not_pure_fails
    · refine separated_breaks hm ?_ hs refused other
      exact fun h => expect_refuses (of_bind_pure h)

/-- What stands before a refused token are the line ends and the statements of a program, up to what
is still to be completed. -/
theorem program_breaks (limits : Limits) (hr : r.At c) :
    Breaks limits.nesting c (row [Newlines, phrases limits.nesting .statements c])
      (program limits) r := by
  intro e t r' refused other
  simp only [program, current_bind, get_bind] at refused
  generalize limits.stack.getD (r.ahead.length + 1) = stack at refused
  have spans : InRow limits.nesting c [Newlines, phrases limits.nesting .statements c]
      (do
        skipNewlines
        let statements ← collect (programStatement? (reading limits.nesting stack))
        return Tree.node (Label.block.token r.current.location) statements) r :=
    .bind (skipNewlines_reads hr) fun _ _ h₁ =>
      .last (programStatements_breaks (reading_sound stack) (reading_mending stack) h₁)
  refine spans ?_ refused other
  simpa using Fillable.nil fun _ => ⟨[], .noStatement⟩

end Parse
end AresSyntax
