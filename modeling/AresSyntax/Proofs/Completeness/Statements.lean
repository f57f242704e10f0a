import AresSyntax.Proofs.Soundness.Statements
import AresSyntax.Proofs.Completeness.Expressions

/-!
Statements and programs find what the grammar derives.

* `statement_complete`: each kind of statement;
* `reading_complete`: the rules by way of each other find the phrases there is room for;
* `program_complete`: the tree that is derived from all tokens is found, if there is room for it.
-/
namespace AresSyntax

theorem Kind.endsReturn_not_continues {k : Kind} (h : k.endsReturn) : k.continues = false := by
  unfold endsReturn at h
  split at h
  all_goals first | rfl | cases h

theorem Kind.startsExpression_not_endsReturn {k : Kind} (h : k.startsExpression) :
    k.endsReturn = false := by
  unfold endsReturn
  split
  all_goals first | rfl | cases h

namespace Grammar
open Parse

variable {limit : Option Nat} {most : Nat} {again : Grammar} {c : Context}
  {ts ts₁ rest : List Token} {w : Token} {e b u : Tree} {us : List Tree}

/-- A condition before a block ends at the block. -/
theorem block_ends (h : Derives limit .block c ts rest [b]) : (firstKind ts).continues = false := by
  cases h with
  | block before opening _ _ _ _ => exact before.ends (by rw [firstKind_cons, opening]; rfl)

/-- A condition and a block behind a word. -/
theorem guarded_complete (hs : again.Sound limit) (ha : again.CompleteUpTo limit most)
    (present : w.kind ≠ .endOfText) (condition : Derives limit .expression c ts ts₁ [e])
    (body : Derives limit .block c ts₁ rest [b])
    (room : Room limit (most + 1) c (w :: ts) rest (1 + Tree.chainAll Kind.waits [e, b])) :
    Takes c (w :: ts) rest (guarded limit again) (.node w [e, b]) := by
  have less := condition.suffix.length_le
  simp only [Tree.chainAll_cons, Tree.chainAll_nil] at room
  have condition := ha.expression condition
    (room.inside (List.suffix_refl _) body.suffix (by omega)) (block_ends body)
  have body := block_complete hs ha body
    (room.imp (fun enough => by rw [List.length_cons] at enough; omega) (by omega))
  exact .bind (.advance present) (.bind condition (.bind body .pure))

theorem clauses_complete (hs : again.Sound limit) (ha : again.CompleteUpTo limit most)
    (h : Derives limit .clauses c ts rest us)
    (room : Room limit (most + 1) c ts rest (1 + Tree.chainAll Kind.waits us))
    (stop : firstKind rest ≠ .keyword .elifWord) :
    ∃ cs, cs.flatten = us ∧ Takes c ts rest (collect (elifClause? limit again)) cs := by
  have adv : (elifClause? limit again).Advancing := elifClause?_advancing hs
  generalize hp : Phrase.clauses = p at h
  induction h with
  | noClause =>
    exact ⟨[], rfl, .collect_stop adv (.bind (.accept_not stop) .pure)⟩
  | nextClause start condition body others _ _ ih =>
    have hc := condition.suffix.length_le
    have hb := body.suffix.length_le
    have ho := others.suffix.length_le
    simp only [Tree.chainAll_cons] at room
    obtain ⟨cs, rfl, found⟩ := ih
      (room.imp (fun enough => by rw [List.length_cons] at enough; omega) (by omega)) stop rfl
    have condition := ha.expression condition
      (room.imp (fun enough => by rw [List.length_cons] at enough; omega) (by omega))
      (block_ends body)
    have body := block_complete hs ha body
      (room.imp (fun enough => by rw [List.length_cons] at enough; omega) (by omega))
    refine ⟨[_, _] :: cs, rfl, .collect_next adv ?_ found⟩
    exact .bind (.accept start (by decide)) (.bind condition (.bind body .pure))
  | _ => cases hp

theorem otherwise_complete (hs : again.Sound limit) (ha : again.CompleteUpTo limit most)
    (h : Derives limit .otherwise c ts rest us)
    (room : Room limit (most + 1) c ts rest (1 + Tree.chainAll Kind.waits us))
    (stop : firstKind rest ≠ .keyword .elseWord) :
    Takes c ts rest (elseBlock limit again) us := by
  cases h with
  | noOtherwise => exact .bind (.accept_not stop) .pure
  | otherwise start body =>
    have body := block_complete hs ha body
      (room.imp (fun enough => by rw [List.length_cons] at enough; omega) (by simp))
    exact .bind (.accept start (by decide)) (.bind body .pure)

theorem conditional_complete {x : Token} {ts₂ ts₃ : List Token} {cs os : List Tree}
    (hs : again.Sound limit) (ha : again.CompleteUpTo limit most)
    (start : w.kind = .keyword .ifWord) (condition : Derives limit .expression c ts ts₁ [e])
    (body : Derives limit .block c ts₁ (x :: ts₂) [b])
    (further : Derives limit .clauses c (x :: ts₂) ts₃ cs)
    (last : Derives limit .otherwise c ts₃ rest os)
    (room : Room limit (most + 1) c (w :: ts) rest (1 + Tree.chainAll Kind.waits
      (e :: b :: .node (Label.elifClauses.token x.location) cs :: os)))
    (ends : (firstKind rest).endsReturn) :
    Takes c (w :: ts) rest (conditional limit again)
      (.node w (e :: b :: .node (Label.elifClauses.token x.location) cs :: os)) := by
  have hl := last.suffix.length_le
  have hf := further.suffix.length_le
  have hb := body.suffix.length_le
  have hc := condition.suffix.length_le
  simp only [Tree.chainAll_cons, Tree.chain_waits_label] at room
  have noElse : firstKind rest ≠ .keyword .elseWord := fun h => by simp [h, Kind.endsReturn] at ends
  have noElif : firstKind ts₃ ≠ .keyword .elifWord := by
    cases last with
    | noOtherwise => exact fun h => by simp [h, Kind.endsReturn] at ends
    | otherwise start _ => simp [start]
  obtain ⟨css, rfl, clauses⟩ := clauses_complete hs ha further
    (room.imp (fun enough => by rw [List.length_cons] at enough; omega) (by omega)) noElif
  have present : w.kind ≠ .endOfText := by simp [start]
  have first := guarded_complete hs ha present condition body
    (room.imp (fun _ => by omega) (by simp only [Tree.chainAll_cons, Tree.chainAll_nil]; omega))
  have last := otherwise_complete hs ha last
    (room.imp (fun enough => by rw [List.length_cons] at enough; omega) (by omega)) noElse
  refine .bind first ?_
  change Takes _ _ _ (elifClauses limit again >>= _) _
  exact .bind (.current (.bind clauses .pure)) (.bind last .pure)

theorem iteration_complete {n i : Token} (hs : again.Sound limit)
    (ha : again.CompleteUpTo limit most) (start : w.kind = .keyword .forWord)
    (ident : n.kind = .literal .ident) (inWord : i.kind = .keyword .inWord)
    (range : Derives limit .expression c ts ts₁ [e]) (body : Derives limit .block c ts₁ rest [b])
    (room : Room limit (most + 1) c (w :: n :: i :: ts) rest
      (1 + Tree.chainAll Kind.waits [.leaf n, e, b])) :
    Takes c (w :: n :: i :: ts) rest (iteration limit again) (.node w [.leaf n, e, b]) := by
  have hb := body.suffix.length_le
  have hr := range.suffix.length_le
  simp only [Tree.chainAll_cons, Tree.chainAll_nil] at room
  have range := ha.expression range
    (room.imp (fun enough => by simp only [List.length_cons] at enough; omega) (by omega))
    (block_ends body)
  have body := block_complete hs ha body
    (room.imp (fun enough => by simp only [List.length_cons] at enough; omega) (by omega))
  apply Takes.bind (.advance (by simp [start]))
  apply Takes.bind (identifier_takes ident)
  apply Takes.bind (.expect inWord (by decide))
  exact .bind range (.bind body .pure)

theorem commanded_complete (ha : again.CompleteUpTo limit most) (present : w.kind ≠ .endOfText)
    (value : Derives limit .expression c ts rest [e])
    (room : Room limit (most + 1) c (w :: ts) rest (1 + e.chain Kind.waits))
    (ends : (firstKind rest).continues = false) :
    Takes c (w :: ts) rest (commanded again) (.node w [e]) := by
  have value := ha.expression value (room.inside (List.suffix_refl _) (List.suffix_refl _)
    (by omega)) ends
  exact .bind (.advance present) (.bind value .pure)

/-- In a subroutine nothing keeps a way out of it from being read. -/
theorem returned_inside (inside : c.inSubroutine = true)
    (h : Takes c ts rest (advance >>= fun start => current >>= fun t =>
      if t.kind.endsReturn = true then pure (.leaf start)
      else do return .node start [← again .expression]) u) :
    Takes c ts rest (returned again) u := by
  intro r hr
  obtain ⟨r', run, hr'⟩ := h hr
  refine ⟨r', ?_, hr'⟩
  have place : r.inSubroutine = true := by rw [← hr.context] at inside; exact inside
  simp only [returned, get_bind, place, if_true]
  exact run

theorem returned_complete (inside : c.inSubroutine = true) (start : w.kind = .keyword .returnWord)
    (ends : (firstKind rest).endsReturn) :
    Takes c (w :: rest) rest (returned again) (.leaf w) := by
  refine returned_inside inside (.bind (.advance (by simp [start])) (.of_cons fun t us ht => ?_))
  subst ht
  rw [firstKind_cons] at ends
  apply Takes.current
  simp only [ends, if_true]
  exact .pure

theorem returned_value_complete (ha : again.CompleteUpTo limit most)
    (inside : c.inSubroutine = true) (start : w.kind = .keyword .returnWord)
    (value : Derives limit .expression c ts rest [e])
    (room : Room limit (most + 1) c (w :: ts) rest (1 + e.chain Kind.waits))
    (ends : (firstKind rest).continues = false) :
    Takes c (w :: ts) rest (returned again) (.node w [e]) := by
  have found := ha.expression value (room.inside (List.suffix_refl _) (List.suffix_refl _)
    (by omega)) ends
  refine returned_inside inside (.bind (.advance (by simp [start])) (.of_cons fun t us ht => ?_))
  subst ht
  have goes : t.kind.endsReturn = false := by
    have starts := value.starts
    simp only [Phrase.startsWith, firstKind_cons] at starts
    exact Kind.startsExpression_not_endsReturn starts
  apply Takes.current
  simp only [goes, Bool.false_eq_true, if_false]
  exact .bind found .pure

/-- A `def` starts a subroutine with a name unless a parenthesis follows. -/
theorem statement_def {d n : Token} (start : d.kind = .keyword .defWord)
    (h : Takes c (d :: n :: ts) rest (if n.kind = .mark .openParen then
      Grammar.expression limit again else subroutineDeclaration limit again) u) :
    Takes c (d :: n :: ts) rest (statement limit again) u := by
  intro r hr
  obtain ⟨r', run, hr'⟩ := h hr
  refine ⟨r', ?_, hr'⟩
  simp only [statement, current_bind, hr.current, start, get_bind,
    Reader.next_of_tokens hr.tokens]
  exact run

/-- An expression is read as a statement where it can not be another one. -/
theorem statement_of_expression (starts : (firstKind ts).startsExpression)
    (paren : firstKind ts = .keyword .defWord → firstKind ts.tail = .mark .openParen)
    (h : Takes c ts rest (Grammar.expression limit again) u) :
    Takes c ts rest (statement limit again) u := by
  apply Takes.of_cons
  rintro t us rfl
  simp only [firstKind_cons, List.tail_cons] at starts paren
  by_cases hd : t.kind = .keyword .defWord
  · cases us with
    | nil => cases paren hd
    | cons n us =>
      refine statement_def hd ?_
      simp only [show n.kind = _ from paren hd, if_true]
      exact h
  · apply Takes.current
    generalize kind : t.kind = k at starts hd
    split
    · exact absurd rfl hd
    all_goals first | exact h | cases starts

theorem statement_complete (hs : again.Sound limit) (ha : again.CompleteUpTo limit most)
    (h : Derives limit .statement c ts rest [u])
    (room : Room limit (most + 1) c ts rest (1 + u.chain Kind.waits))
    (ends : (firstKind rest).endsReturn) : Takes c ts rest (statement limit again) u := by
  have stop : (firstKind rest).continues = false := Kind.endsReturn_not_continues ends
  cases h with
  | declaration start ident params body =>
    refine statement_def start ?_
    simp only [ident, reduceCtorEq, if_false]
    simp only [Tree.chain_waits_label, Tree.chainAll_cons, Tree.chainAll_nil] at room
    exact subroutineDeclaration_complete hs ha start ident params body
      (room.imp (fun enough => by simp only [List.length_cons] at enough; omega)
        (by simp only [Tree.chainAll_cons, Tree.chainAll_nil]; omega))
  | conditional start condition body further last =>
    apply Takes.current
    simp only [start]
    have space := room.children
    exact conditional_complete hs ha start condition body further last space ends
  | loop start condition body =>
    apply Takes.current
    rcases start with start | start <;>
      · simp only [start]
        exact guarded_complete hs ha (by simp [start]) condition body room.children
  | iteration start ident inWord range body =>
    apply Takes.current
    simp only [start]
    exact iteration_complete hs ha start ident inWord range body room.children
  | command start value =>
    apply Takes.current
    rcases start with start | start <;>
      · simp only [start]
        exact commanded_complete ha (by simp [start]) value (room.children.imp id (by simp)) stop
  | leave inside start =>
    apply Takes.current
    simp only [start]
    exact returned_complete inside start ends
  | leaveWith inside start value =>
    apply Takes.current
    simp only [start]
    exact returned_value_complete ha inside start value (room.children.imp id (by simp)) stop
  | value value =>
    have found := expression_complete hs ha value (room.imp id (by omega)) stop
    exact statement_of_expression value.starts (value.def_paren rfl) found

theorem rule_complete (hs : again.Sound limit) (ha : again.CompleteUpTo limit most) :
    (rule limit again).CompleteUpTo limit (most + 1)
  | .statement, _, _, _, _, h, room, ends => statement_complete hs ha h room ends
  | .expression, _, _, _, _, h, room, ends =>
    expression_complete hs ha h (room.imp id (Nat.add_le_add_left (Nat.le_add_left _ _) _))
      (by simpa [Goal.endsBefore] using ends)
  | .assignment, _, _, _, _, h, room, ends =>
    assignment_complete hs ha h room (by simpa [Goal.endsBefore] using ends)
  | .operand, _, _, _, _, h, room, ends =>
    operand_complete hs ha h room (by simpa [Goal.endsBefore] using ends)

/-- A phrase is found if there is room for it among the rules that may wait. -/
theorem reading_complete (stack : Nat) : (reading limit stack).CompleteUpTo limit stack := by
  induction stack with
  | zero =>
    intro g c ts rest u h room _
    have solid : g.phrase.solid = true := by cases g <;> rfl
    refine (room.pos (h.length_lt solid) ?_).elim
    cases g with
    | expression =>
      cases h with
      | expression within _ => exact .inr within
    | _ => exact .inl (Nat.add_pos_left Nat.one_pos _)
  | succ stack ih => exact rule_complete (reading_sound stack) ih

end Grammar

namespace Parse

variable {limit : Option Nat} {again : Grammar}

/-- At the end of a text the end token can be taken without end. -/
theorem expect_end {c : Context} {e : Token} {ts : List Token} {x : Expectation}
    (ending : e.kind = .endOfText) : Takes c (e :: ts) (e :: ts) (expect .endOfText x) e := by
  intro r hr
  have last : r.current.kind = .endOfText := hr.current ▸ ending
  have taken := Reader.advance_at_end hr.regular last
  rw [hr.current] at taken last
  exact ⟨r, expect_eq_ok.2 ⟨hr.current ▸ last, taken⟩, hr⟩

theorem programStatement?_finds :
    Grammar.FindsStatements .endOfText again (programStatement? again) where
  stop hk := by
    apply Takes.check
    simp only [hk, decide_true, if_true]
    exact .pure
  next starts found separator other := by
    apply Takes.check
    have goes : firstKind _ ≠ .endOfText := fun h => by rw [h] at starts; cases starts
    simp only [goes, decide_false, Bool.false_eq_true, if_false]
    exact .bind found (.bind (Grammar.separator_complete separator other) .pure)
  last starts found closing := by
    apply Takes.check
    have goes : firstKind _ ≠ .endOfText := fun h => by rw [h] at starts; cases starts
    simp only [goes, decide_false, Bool.false_eq_true, if_false]
    refine .bind found (.bind (Grammar.separator_otherwise ?_ ?_ ?_) .pure)
    · simp [closing]
    · simp [closing]
    · exact .bind (expect_end closing) .pure

/-- The tree that is derived from all tokens still to be seen is found, if there is room for it. -/
theorem program_complete {limits : Limits} {r : Reader} {ts : List Token} {t : Tree}
    (h : DerivesProgram limits.nesting ts t) (hr : r.Before .top ts)
    (room : ts.length ≤ limits.stack.getD (r.ahead.length + 1) + 1 ∨
      ∃ n ∈ limits.nesting,
        n + 1 + t.chain Kind.waits ≤ limits.stack.getD (r.ahead.length + 1)) :
    ∃ r', program limits r = .ok t r' := by
  cases h with
  | @intro ts ts₁ x e us lines inner ending =>
    have less := lines.suffix.length_le
    generalize stack_eq : limits.stack.getD (r.ahead.length + 1) = stack at room
    have takes : Grammar.TakesStatement limits.nesting _ :=
      programStatement?_takes (Grammar.reading_sound stack)
    have space : Room limits.nesting stack .top ts₁ [e] (1 + Tree.chainAll Kind.waits us) := by
      obtain enough | ⟨n, limited, enough⟩ := room
      · exact .inl (by rw [List.length_singleton]; omega)
      · rw [Tree.chain_waits_label] at enough
        exact .inr ⟨n, limited, Nat.zero_le n, by rwa [← Nat.add_assoc]⟩
    have found := Grammar.statements_complete (Grammar.reading_complete stack)
      takes.advancing programStatement?_finds inner space ending rfl (by decide)
    have start := inner.statements_not_newline (by simp [ending])
    obtain ⟨s, skipped, hs⟩ := Takes.skipNewlines lines start hr
    obtain ⟨r', run, _⟩ := found hs
    refine ⟨r', ?_⟩
    simp only [program, current_bind, get_bind, hr.current, stack_eq, bind_eq_ok, pure_eq_ok]
    exact ⟨(), s, skipped, us, r', run, rfl, rfl⟩

end Parse
end AresSyntax
