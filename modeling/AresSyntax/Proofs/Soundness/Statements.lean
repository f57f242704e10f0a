import AresSyntax.Grammar.Program
import AresSyntax.Proofs.Soundness.Expressions

/-!
Statements and programs give what the grammar derives.

* `statement_yields`: each kind of statement;
* `reading_sound`: the rules by way of each other, for any number of rules that may wait;
* `program_derives`: the tree of a program is derived from all of its tokens.
-/
namespace AresSyntax
namespace Grammar
open Parse

variable {limit : Option Nat} {again : Grammar} {c : Context} {r r' : Reader} {u : Tree}

/-- A word, a condition and a block. -/
theorem guarded_spec (ha : again.Sound limit) (hr : r.At c)
    (present : r.current.kind ≠ .endOfText) (h : guarded limit again r = .ok u r') :
    r'.At c ∧ ∃ ts ts₁ e b, u = .node r.current [e, b] ∧ r.tokens = r.current :: ts ∧
      Derives limit .expression c ts ts₁ [e] ∧ Derives limit .block c ts₁ r'.tokens [b] := by
  simp only [guarded, bind_eq_ok, pure_eq_ok] at h
  obtain ⟨w, s₁, start, e, s₂, condition, b, s₃, body, rfl, rfl⟩ := h
  obtain ⟨h₁, rfl, take⟩ := advance_take hr present start
  obtain ⟨h₂, condition⟩ := ha .expression h₁ condition
  obtain ⟨h₃, body⟩ := block_yields ha h₂ body
  exact ⟨h₃, _, _, e, b, rfl, take, condition, body⟩

theorem elifClause?_spec {o : Option (List Tree)} (ha : again.Sound limit) (hr : r.At c)
    (h : elifClause? limit again r = .ok o r') :
    (o = none ∧ r = r') ∨ ∃ w ts ts₁ e b, o = some [e, b] ∧ r'.At c ∧
      w.kind = .keyword .elifWord ∧ r.tokens = w :: ts ∧
      Derives limit .expression c ts ts₁ [e] ∧ Derives limit .block c ts₁ r'.tokens [b] := by
  simp only [elifClause?, bind_eq_ok, ite_eq_ok, pure_eq_ok] at h
  obtain ⟨found, s₁, word, ⟨rfl, e, s₂, condition, b, s₃, body, rfl, rfl⟩ |
    ⟨missing, rfl, rfl⟩⟩ := h
  · obtain ⟨h₁, ⟨_, w, start, take⟩ | ⟨⟨⟩, _⟩⟩ := accept_spec hr (by decide) word
    obtain ⟨h₂, condition⟩ := ha .expression h₁ condition
    obtain ⟨h₃, body⟩ := block_yields ha h₂ body
    exact .inr ⟨w, _, _, e, b, rfl, h₃, start, take, condition, body⟩
  · obtain ⟨_, ⟨rfl, _⟩ | ⟨_, _, rfl⟩⟩ := accept_spec hr (by decide) word
    · exact absurd rfl missing
    · exact .inl ⟨rfl, rfl⟩

theorem elifClause?_advancing (ha : again.Sound limit) : (elifClause? limit again).Advancing := by
  apply @advancing_of_phrase limit .block _ _ rfl
  intro c r r' a hr h
  obtain ⟨⟨⟩, _⟩ | ⟨w, ts, ts₁, e, b, ⟨⟩, hr', _, take, condition, body⟩ := elifClause?_spec ha hr h
  have behind : ts <:+ r.tokens := take ▸ List.suffix_cons _ _
  exact ⟨hr', ts₁, _, _, condition.suffix.trans behind, body, List.suffix_refl _⟩

theorem clauses_spec {cs : List (List Tree)} (ha : again.Sound limit) (hr : r.At c)
    (h : collect (elifClause? limit again) r = .ok cs r') :
    r'.At c ∧ Derives limit .clauses c r.tokens r'.tokens cs.flatten := by
  have run := (collect_eq_ok (elifClause?_advancing ha) hr.regular).1 h
  clear h
  induction run with
  | stop last =>
    obtain ⟨_, rfl⟩ | ⟨_, _, _, _, _, ⟨⟩, _⟩ := elifClause?_spec ha hr last
    exact ⟨hr, .noClause⟩
  | next first _ ih =>
    obtain ⟨⟨⟩, _⟩ | ⟨w, ts, ts₁, e, b, ⟨⟩, hs, start, take, condition, body⟩ :=
      elifClause?_spec ha hr first
    obtain ⟨hr', others⟩ := ih hs
    exact ⟨hr', take ▸ .nextClause start condition body others⟩

theorem elseBlock_yields (ha : again.Sound limit) :
    YieldsAll limit .otherwise (elseBlock limit again) := by
  intro c r r' us hr h
  simp only [elseBlock, bind_eq_ok, ite_eq_ok, pure_eq_ok] at h
  obtain ⟨found, s₁, word, ⟨rfl, b, s₂, body, rfl, rfl⟩ | ⟨missing, rfl, rfl⟩⟩ := h
  · obtain ⟨h₁, ⟨_, w, start, take⟩ | ⟨⟨⟩, _⟩⟩ := accept_spec hr (by decide) word
    obtain ⟨h₂, body⟩ := block_yields ha h₁ body
    exact ⟨h₂, take ▸ .otherwise start body⟩
  · obtain ⟨_, ⟨rfl, _⟩ | ⟨_, _, rfl⟩⟩ := accept_spec hr (by decide) word
    · exact absurd rfl missing
    · exact ⟨hr, .noOtherwise⟩

theorem conditional_yields (ha : again.Sound limit) (hr : r.At c)
    (start : r.current.kind = .keyword .ifWord) (h : conditional limit again r = .ok u r') :
    r'.At c ∧ Derives limit .statement c r.tokens r'.tokens [u] := by
  simp only [conditional, elifClauses, bind_eq_ok] at h
  obtain ⟨g, s₁, first, h⟩ := h
  obtain ⟨h₁, ts, ts₁, e, b, rfl, take, condition, body⟩ :=
    guarded_spec ha hr (by simp [start]) first
  simp only [current_bind, bind_eq_ok, pure_eq_ok] at h
  obtain ⟨_, s₂, ⟨cs, s₃, clauses, rfl, rfl⟩, os, s₄, last, rfl, rfl⟩ := h
  obtain ⟨h₂, clauses⟩ := clauses_spec ha h₁ clauses
  obtain ⟨h₃, last⟩ := elseBlock_yields ha h₂ last
  obtain ⟨ts₂, behind⟩ := s₁.tokens_eq_cons
  rw [behind] at body clauses
  exact ⟨h₃, take ▸ .conditional start condition body clauses last⟩

theorem iteration_yields (ha : again.Sound limit) (hr : r.At c)
    (start : r.current.kind = .keyword .forWord) (h : iteration limit again r = .ok u r') :
    r'.At c ∧ Derives limit .statement c r.tokens r'.tokens [u] := by
  simp only [iteration, identifier, bind_eq_ok, pure_eq_ok] at h
  obtain ⟨w, s₁, first, _, _, ⟨n, s₂, ident, rfl, rfl⟩, i, s₃, inWord, e, s₄, range, b, s₅, body,
    rfl, rfl⟩ := h
  obtain ⟨h₁, rfl, take⟩ := advance_take hr (by simp [start]) first
  obtain ⟨h₂, ident, take₂⟩ := expect_spec h₁ (by decide) ident
  obtain ⟨h₃, inWord, take₃⟩ := expect_spec h₂ (by decide) inWord
  obtain ⟨h₄, range⟩ := ha .expression h₃ range
  obtain ⟨h₅, body⟩ := block_yields ha h₄ body
  rw [take, take₂, take₃]
  exact ⟨h₅, .iteration start ident inWord range body⟩

theorem commanded_yields (ha : again.Sound limit) (hr : r.At c)
    (start : r.current.kind = .keyword .importWord ∨ r.current.kind = .keyword .debugWord)
    (h : commanded again r = .ok u r') :
    r'.At c ∧ Derives limit .statement c r.tokens r'.tokens [u] := by
  simp only [commanded, bind_eq_ok, pure_eq_ok] at h
  obtain ⟨w, s₁, first, e, s₂, value, rfl, rfl⟩ := h
  have present : r.current.kind ≠ .endOfText := by rcases start with h | h <;> simp [h]
  obtain ⟨h₁, rfl, take⟩ := advance_take hr present first
  obtain ⟨h₂, value⟩ := ha .expression h₁ value
  exact ⟨h₂, take ▸ .command start value⟩

theorem returned_yields (ha : again.Sound limit) (hr : r.At c)
    (start : r.current.kind = .keyword .returnWord) (h : returned again r = .ok u r') :
    r'.At c ∧ Derives limit .statement c r.tokens r'.tokens [u] := by
  by_cases inside : r.inSubroutine = true
  · have place : c.inSubroutine = true := hr.context ▸ inside
    simp only [returned, get_bind, inside, if_true, bind_eq_ok, current_bind, ite_eq_ok,
      pure_eq_ok] at h
    obtain ⟨w, s₁, first, ⟨_, rfl, rfl⟩ | ⟨_, e, s₂, value, rfl, rfl⟩⟩ := h
    · obtain ⟨h₁, rfl, take⟩ := advance_take hr (by simp [start]) first
      exact ⟨h₁, take ▸ .leave place start⟩
    · obtain ⟨h₁, rfl, take⟩ := advance_take hr (by simp [start]) first
      obtain ⟨h₂, value⟩ := ha .expression h₁ value
      exact ⟨h₂, take ▸ .leaveWith place start value⟩
  · simp [returned, inside] at h

theorem statement_yields (ha : again.Sound limit) :
    Yields limit .statement (statement limit again) := by
  have whole : Yields limit .statement (expression limit again) := by
    intro c r r' u hr h
    obtain ⟨hr', value⟩ := expression_yields ha hr h
    exact ⟨hr', .value value⟩
  have loop : ∀ {c : Context} {r r' : Reader} {u : Tree}, r.At c →
      r.current.kind = .keyword .whileWord ∨ r.current.kind = .keyword .untilWord →
      guarded limit again r = .ok u r' →
      r'.At c ∧ Derives limit .statement c r.tokens r'.tokens [u] := by
    intro c r r' u hr start h
    have present : r.current.kind ≠ .endOfText := by rcases start with h | h <;> simp [h]
    obtain ⟨hr', ts, ts₁, e, b, rfl, take, condition, body⟩ := guarded_spec ha hr present h
    exact ⟨hr', take ▸ .loop start condition body⟩
  intro c r r' u hr h
  simp only [statement, current_bind] at h
  generalize kind : r.current.kind = k at h
  split at h
  case h_1 =>
    simp only [get_bind, ite_eq_ok] at h
    obtain ⟨_, value⟩ | ⟨_, declaration⟩ := h
    · exact whole hr value
    · exact subroutineDeclaration_yields ha hr kind declaration
  case h_2 => exact conditional_yields ha hr kind h
  case h_3 => exact loop hr (.inl kind) h
  case h_4 => exact loop hr (.inr kind) h
  case h_5 => exact iteration_yields ha hr kind h
  case h_6 => exact commanded_yields ha hr (.inl kind) h
  case h_7 => exact commanded_yields ha hr (.inr kind) h
  case h_8 => exact returned_yields ha hr kind h
  case h_9 => exact whole hr h

theorem rule_sound (ha : again.Sound limit) : (rule limit again).Sound limit
  | .statement => statement_yields ha
  | .expression => expression_yields ha
  | .assignment => assignment_yields ha
  | .operand => operand_yields ha

/-- The rules are sound, no matter how many of them may wait. -/
theorem reading_sound (stack : Nat) : (reading limit stack).Sound limit := by
  induction stack with
  | zero => exact fun _ _ _ _ _ _ h => (refuse_eq_ok.1 h).elim
  | succ stack ih => exact rule_sound ih

end Grammar

namespace Parse

variable {limit : Option Nat} {again : Grammar} {c : Context} {r r' : Reader}

theorem programStatement?_takes (ha : again.Sound limit) :
    Grammar.TakesStatement limit (programStatement? again) := by
  intro c r r' o hr h
  simp only [programStatement?, check_bind, ite_eq_ok, bind_eq_ok, pure_eq_ok] at h
  obtain ⟨_, rfl, rfl⟩ | ⟨_, u, s, first, _, s', second, rfl, rfl⟩ := h
  · exact .inl ⟨rfl, rfl⟩
  · obtain ⟨hs, derived⟩ := ha .statement hr first
    refine .inr ⟨u, s.tokens, rfl, ?_⟩
    obtain ⟨hr', separator⟩ | closing := Grammar.separator_spec hs second
    · exact ⟨hr', derived, .inl separator⟩
    · simp only [bind_eq_ok, pure_eq_ok] at closing
      obtain ⟨x, s₁, ending, _, rfl⟩ := closing
      obtain ⟨last, taken⟩ := expect_eq_ok.1 ending
      rw [Reader.advance_at_end hs.regular last] at taken
      cases taken
      exact ⟨hs, derived, .inr ⟨rfl, by simp [last]; rfl⟩⟩

/-- A program goes on up to the end of its text, wherever it starts. -/
theorem program_ends {limits : Limits} {t : Tree} (hr : r.Regular)
    (h : program limits r = .ok t r') : r'.current.kind = .endOfText := by
  simp only [program, current_bind, get_bind, bind_eq_ok, pure_eq_ok] at h
  obtain ⟨_, s, lines, us, s', statements, rfl, rfl⟩ := h
  obtain ⟨hs, _⟩ := skipNewlines_spec hr.at lines
  have takes : Grammar.TakesStatement limits.nesting _ :=
    programStatement?_takes (Grammar.reading_sound (limits.stack.getD (r.ahead.length + 1)))
  obtain ⟨i, last⟩ := ((collect_eq_ok takes.advancing hs.regular).1 statements).last
  simp only [programStatement?, check_bind, decide_eq_true_eq, ite_eq_ok, bind_eq_ok,
    pure_eq_ok, reduceCtorEq, false_and, and_false, exists_false, or_false] at last
  obtain ⟨ending, _, rfl⟩ := last
  exact ending

/-- The tree of a program is derived from all tokens still to be seen. -/
theorem program_derives {limits : Limits} {t : Tree} (hr : r.At .top)
    (h : program limits r = .ok t r') : DerivesProgram limits.nesting r.tokens t := by
  have ending := program_ends hr.regular h
  simp only [program, current_bind, get_bind, bind_eq_ok, pure_eq_ok] at h
  obtain ⟨_, s, lines, us, s', statements, rfl, rfl⟩ := h
  generalize limits.stack.getD (r.ahead.length + 1) = stack at statements
  obtain ⟨hs, lines, _⟩ := skipNewlines_spec hr lines
  have takes : Grammar.TakesStatement limits.nesting _ :=
    programStatement?_takes (Grammar.reading_sound stack)
  obtain ⟨hs', inner⟩ := Grammar.statements_yields takes hs statements
  obtain ⟨ts, start⟩ := r.tokens_eq_cons
  have last : s'.tokens = [s'.current] := upToEnd_cons_of_eq ending _
  rw [start] at lines ⊢
  rw [last] at inner
  exact .intro lines inner ending

end Parse
end AresSyntax
