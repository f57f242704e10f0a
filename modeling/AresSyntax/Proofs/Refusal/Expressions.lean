import AresSyntax.Proofs.Refusal.Blocks

/-!
Where expressions refuse a token, they can be completed.

* `hashElements_reads`, `atom_reads`, `trailed_breaks`, `operand_reads`: what stands between binary
  operators;
* `climb_breaks`: operators from a level up;
* `assignment_reads`, `expression_reads`: whole expressions.
-/
namespace AresSyntax.Grammar
open Parse AresSyntax.Span

variable {limit : Option Nat} {again : Grammar} {c : Context} {r : Reader}

theorem group_breaks (hm : again.Mending limit) (hr : r.At c)
    (opening : r.current.kind = .mark .openParen) :
    Breaks limit c (phrase limit .atom c) (group again) r := by
  have spans : InRow limit c [row [sign (.mark .openParen), Newlines], phrase limit .expression c,
      Newlines, sign (.mark .closeParen)] (group again) r :=
    .bind (advanceLines_reads hr opening (by decide)) fun _ _ h₁ =>
      .bind (hm .expression h₁) fun _ _ h₂ => .bind (skipNewlines_reads h₂) fun _ _ h₃ =>
        .bind (expect_reads h₃ (by decide) (by simp)) fun _ _ _ => .pure
  refine spans.breaks (by simp) ?_
  rintro - _ _ - ⟨_, ⟨_, ⟨o, opening, rfl⟩, _, before, rfl⟩, _, ⟨e, inner⟩, _, behind, _,
    ⟨x, closing, rfl⟩, rfl⟩
  exact ⟨e, .group opening before inner behind closing⟩

/-- The expressions up to a closing sign, behind which there is nothing of them. -/
theorem expressions_breaks (ha : again.Sound limit) (hm : again.Mending limit) {closing : Mark}
    {x : Expectation} (hr : r.At c) :
    Breaks limit c (row [phrases limit (.list .expression) c, Newlines, sign (.mark closing)])
      (expressions again closing x) r := by
  have spans : InRow limit c [phrases limit (.list .expression) c, Newlines, sign (.mark closing)]
      (expressions again closing x) r := by
    simp only [expressions, check_listUntil]
    exact .bind (listUntil_reads rfl (ha .expression) (fun _ h => hm .expression h)
        (fillable_expression limit c) hr)
      fun _ _ h₁ => .bind (skipNewlines_reads h₁) fun _ _ h₂ =>
        .bind (expect_reads h₂ (by simp) (by simp)) fun _ _ _ => .pure
  exact spans.breaks (by simp) fun _ _ _ _ held => held

theorem fillable_expressions (closing : Mark) :
    (row [phrases limit (.list .expression) c, Newlines, sign (.mark closing)]).Fillable limit c :=
  .row (by simp)

theorem array_breaks (ha : again.Sound limit) (hm : again.Mending limit) (hr : r.At c)
    (opening : r.current.kind = .mark .openBracket) :
    Breaks limit c (phrase limit .atom c) (array again) r := by
  have spans : InRow limit c [row [sign (.mark .openBracket), Newlines],
      row [phrases limit (.list .expression) c, Newlines, sign (.mark .closeBracket)]]
      (array again) r :=
    .bind (advanceLines_reads hr opening (by decide)) fun _ _ h₁ =>
      .last (expressions_breaks ha hm h₁)
  refine spans.breaks (by simp [fillable_expressions]) ?_
  rintro - _ _ - ⟨_, ⟨_, ⟨o, opening, rfl⟩, _, before, rfl⟩, _,
    ⟨_, ⟨es, elements⟩, _, behind, _, ⟨x, closing, rfl⟩, rfl⟩, rfl⟩
  exact ⟨_, .array opening before elements behind closing⟩

theorem hashElement_breaks (hm : again.Mending limit) (hr : r.At c) :
    Breaks limit c (phrase limit .pair c) (hashElement again) r := by
  have spans : InRow limit c [phrase limit .expression c, sign (.mark .arrow), Newlines,
      phrase limit .expression c] (hashElement again) r :=
    .current (.bind (hm .expression hr) fun _ _ h₁ =>
      .bind (expect_reads h₁ (by decide) (by simp)) fun _ _ h₂ =>
        .bind (skipNewlines_reads h₂) fun _ _ h₃ => .bind (hm .expression h₃) fun _ _ _ => .pure)
  refine spans.breaks (by simp) ?_
  rintro - ts _ - ⟨_, ⟨k, key⟩, _, ⟨a, arrow, rfl⟩, _, lines, _, ⟨v, value⟩, rfl⟩
  have some : ts ≠ [] := fun none => by simpa [none] using key.suffix
  obtain ⟨x, ts, rfl⟩ := List.exists_cons_of_ne_nil some
  exact ⟨_, .pair key arrow lines value⟩

theorem hashElement?_breaks (hm : again.Mending limit) (hr : r.At c) :
    Breaks limit c (phrase limit .pair c) (hashElement? again) r := by
  intro e t r' refused other
  simp only [hashElement?, check_bind, decide_eq_true_eq] at refused
  split at refused
  · exact absurd refused not_pure_fails
  · exact hashElement_breaks hm hr (of_bind_pure refused) other

theorem nextHashElement?_breaks (hm : again.Mending limit) (hr : r.At c) :
    Breaks limit c (further (phrases limit .pairs c)) (nextHashElement? again) r := by
  intro e t r' refused other
  simp only [nextHashElement?, check_bind, decide_eq_true_eq] at refused
  split at refused
  · rename_i comma
    have pairs {s : Reader} (hs : s.At c) :
        Breaks limit c (phrases limit .pairs c) (hashElement? again) s := by
      intro e t r' refused other
      refine (hashElement?_breaks hm hs refused other).imp ?_
      rintro - _ _ - ⟨u, element⟩
      exact ⟨[u], .lastPair element⟩
    have spans : InRow limit c [row [sign (.mark .comma), Newlines], phrases limit .pairs c]
        (do let _ ← advanceLines; hashElement? again) r :=
      .bind (advanceLines_reads hr comma (by decide)) fun _ _ h₁ => .only (pairs h₁)
    exact spans (by simp) refused other
  · exact absurd refused not_pure_fails

theorem hashElements_reads (ha : again.Sound limit) (hm : again.Mending limit) (hr : r.At c) :
    Reads limit c (phrases limit .pairs c) (hashElements again) r where
  takes := (hashElements_yields ha).takes hr
  breaks := by
    intro e t r' refused other
    obtain refused | ⟨o, s, first, refused⟩ := bind_eq_error.1 refused
    · refine (hashElement?_breaks hm hr refused other).imp ?_
      rintro - _ _ - ⟨u, element⟩
      exact ⟨[u], .lastPair element⟩
    · obtain ⟨rfl, -⟩ | ⟨u, rfl, hs, derived⟩ := hashElement?_spec ha hr first
      · exact absurd refused not_pure_fails
      · refine commas_break .nextPair ?_ (fun _ => nextHashElement?_breaks hm) hs derived
          (of_bind_pure refused) other
        intro v s s' hs h
        obtain ⟨⟨⟩, _⟩ | ⟨x, ts₁, ts₂, hs', comma, take, lines, ⟨⟨⟩, _⟩ | ⟨v, -, element⟩⟩ :=
          nextHashElement?_spec ha hs h
        exact ⟨hs', v, x, ts₁, ts₂, comma, take, lines, element⟩

theorem hash_breaks (ha : again.Sound limit) (hm : again.Mending limit) (hr : r.At c)
    (opening : r.current.kind = .mark .openBrace) :
    Breaks limit c (phrase limit .atom c) (hash again) r := by
  have spans : InRow limit c [row [sign (.mark .openBrace), Newlines], phrases limit .pairs c,
      Newlines, sign (.mark .closeBrace)] (hash again) r :=
    .bind (advanceLines_reads hr opening (by decide)) fun _ _ h₁ =>
      .bind (hashElements_reads ha hm h₁) fun _ _ h₂ => .bind (skipNewlines_reads h₂) fun _ _ h₃ =>
        .bind (expect_reads h₃ (by decide) (by simp)) fun _ _ _ => .pure
  refine spans.breaks (by simp) ?_
  rintro - _ _ - ⟨_, ⟨_, ⟨o, opening, rfl⟩, _, before, rfl⟩, _, ⟨es, elements⟩, _, behind, _,
    ⟨x, closing, rfl⟩, rfl⟩
  exact ⟨_, .hash opening before elements behind closing⟩

theorem atom_reads (ha : again.Sound limit) (hm : again.Mending limit) (hr : r.At c) :
    Reads limit c (phrase limit .atom c) (atom limit again) r where
  takes := (atom_yields ha).takes hr
  breaks := by
    intro e t r' refused other
    simp only [atom, current_bind] at refused
    generalize kind : r.current.kind = k at refused
    split at refused
    case h_1 => exact absurd (of_bind_pure refused) not_advance_refuses
    case h_2 => exact array_breaks ha hm hr kind refused other
    case h_3 => exact hash_breaks ha hm hr kind refused other
    case h_4 => exact group_breaks hm hr kind refused other
    case h_5 => exact subroutineLiteral_breaks ha hm hr kind refused other
    case h_6 =>
      obtain ⟨-, -, rfl⟩ := refuse_eq_error.1 refused
      exact .of_fillable hr (fillable_atom limit c)

/-- Behind its base, a subscript or a call can be completed. -/
theorem trailer?_breaks (ha : again.Sound limit) (hm : again.Mending limit) {base : Tree}
    {ts : List Token} {e : GrammarError} {t : Token} {r' : Reader} (hr : r.At c)
    (derived : Derives limit .trailed c ts r.tokens [base])
    (refused : trailer? again base r = .error (.grammar e t) r') (other : e ≠ .nestedTooDeeply) :
    (phrase limit .trailed c).Mends limit c ts r' := by
  simp only [trailer?, current_bind] at refused
  generalize kind : r.current.kind = k at refused
  split at refused
  case h_1 =>
    have spans : InRow limit c [row [sign (.mark .openBracket), Newlines],
        phrase limit .expression c, Newlines, sign (.mark .closeBracket)]
        (subscript again base) r :=
      .bind (advanceLines_reads hr kind (by decide)) fun _ _ h₁ =>
        .bind (hm .expression h₁) fun _ _ h₂ => .bind (skipNewlines_reads h₂) fun _ _ h₃ =>
          .bind (expect_reads h₃ (by decide) (by simp)) fun _ _ _ => .pure
    refine (Mends.after derived.grafts (spans (by simp) (of_bind_pure refused) other)).imp ?_
    rintro - _ _ - ⟨_, base, _, ⟨_, ⟨o, opening, rfl⟩, _, before, rfl⟩, _, ⟨e, index⟩, _, behind, _,
      ⟨x, closing, rfl⟩, rfl⟩
    exact ⟨_, .subscript base opening before index behind closing⟩
  case h_2 =>
    have spans : InRow limit c [row [sign (.mark .openParen), Newlines],
        row [phrases limit (.list .expression) c, Newlines, sign (.mark .closeParen)]]
        (call again base) r :=
      .bind (advanceLines_reads hr kind (by decide)) fun _ _ h₁ =>
        .last (expressions_breaks ha hm h₁)
    have mended := spans (by simp [fillable_expressions]) (of_bind_pure refused) other
    refine (Mends.after derived.grafts mended).imp ?_
    rintro - _ _ - ⟨_, base, _, ⟨_, ⟨o, opening, rfl⟩, _, before, rfl⟩, _,
      ⟨_, ⟨es, arguments⟩, _, behind, _, ⟨x, closing, rfl⟩, rfl⟩, rfl⟩
    exact ⟨_, .call base opening before arguments behind closing⟩
  case h_3 => exact absurd refused not_pure_fails

theorem trailed_breaks (ha : again.Sound limit) (hm : again.Mending limit) (hr : r.At c) :
    Breaks limit c (phrase limit .trailed c) (trailed limit again) r := by
  intro e t r' refused other
  obtain refused | ⟨u, s, first, refused⟩ := bind_eq_error.1 refused
  · refine ((atom_reads ha hm hr).breaks refused other).imp ?_
    rintro - _ _ - ⟨u, atom⟩
    exact ⟨u, .untrailed atom⟩
  · obtain ⟨hs, base⟩ := atom_yields ha hr first
    let inv (u : Tree) (s : Reader) := s.At c ∧ Derives limit .trailed c r.tokens s.tokens [u]
    have start : inv u s := ⟨hs, .untrailed base⟩
    refine iterate_breaks ?_ ?_ start refused other
    · rintro u v s s' ⟨hs, derived⟩ h
      obtain ⟨⟨⟩, _⟩ | ⟨v, ⟨⟩, hs', _, onward⟩ := trailer?_spec ha hs h
      exact ⟨hs', onward _ derived⟩
    · rintro u s e t r' ⟨hs, derived⟩ refused other
      exact trailer?_breaks ha hm hs derived refused other

theorem operand_reads (ha : again.Sound limit) (hm : again.Mending limit) (hr : r.At c) :
    Reads limit c (phrase limit .operand c) (operand limit again) r where
  takes := (operand_yields ha).takes hr
  breaks := by
    intro e t r' refused other
    simp only [operand, current_bind] at refused
    split at refused
    · rename_i unary
      generalize kind : r.current.kind = k at unary
      have present : k ≠ .endOfText := by
        rintro rfl
        cases unary
      have spans : InRow limit c [row [sign k, Newlines], phrase limit .operand c]
          (do
            let _ ← advanceLines
            return Tree.node r.current.asPrefixOperator [← again .operand]) r :=
        .bind (advanceLines_reads hr kind present) fun _ _ h₁ =>
          .bind (hm .operand h₁) fun _ _ _ => .pure
      refine (spans (by simp [fillable_operand]) refused other).imp ?_
      rintro - _ _ - ⟨_, ⟨_, ⟨s, same, rfl⟩, _, lines, rfl⟩, _, ⟨u, inner⟩, rfl⟩
      obtain minus | other := Kind.isUnaryOperator_iff.1 unary
      · exact ⟨_, .negation (same.trans minus) lines inner⟩
      · exact ⟨_, .signed (same.symm ▸ other) lines inner⟩
    · refine (trailed_breaks ha hm hr refused other).imp ?_
      rintro - _ _ - ⟨u, inner⟩
      exact ⟨u, .unsigned inner⟩

/-- Behind its left side, an operator can be completed with an operand that binds tighter. -/
theorem fold?_breaks {least k : Nat} {right : Nat → Parse Tree} {left : Tree} {ts : List Token}
    (positive : 0 < least) (rank : r.current.kind.precedence.rank ≤ k)
    (hright : ∀ k, least ≤ k → k < Precedence.unary.rank → ∀ ⦃s⦄, s.At c →
      Breaks limit c (phrase limit (.level (k + 1)) c) (right (k + 1)) s) (hr : r.At c)
    (derived : Derives limit (.level k) c ts r.tokens [left]) {e : GrammarError} {t : Token}
    {r' : Reader} (refused : fold? least right left r = .error (.grammar e t) r')
    (other : e ≠ .nestedTooDeeply) : (phrase limit (.level least) c).Mends limit c ts r' := by
  simp only [fold?, current_bind] at refused
  split at refused
  · rename_i binds
    obtain ⟨op, sign, same⟩ := Kind.binary_of_rank (Nat.lt_of_lt_of_le positive binds)
    generalize own : r.current.kind.precedence.rank = j at refused rank binds same
    have below : j < Precedence.unary.rank := own ▸ Kind.rank_lt _
    have side := derived.looser rank
    have spans : InRow limit c [row [Span.sign (.binary op), Newlines],
        phrase limit (.level (j + 1)) c]
        (do
          let _ ← advanceLines
          return some (Tree.node r.current [left, ← right (j + 1)])) r :=
      .bind (advanceLines_reads hr sign (by simp)) fun _ _ h₁ => .last (hright j binds below h₁)
    refine (Mends.after side.grafts
      (spans (by simpa using fillable_level limit c below) refused other)).imp ?_
    rintro - _ _ - ⟨_, left, _, ⟨_, ⟨o, sign, rfl⟩, _, lines, rfl⟩, _, ⟨u, right⟩, rfl⟩
    exact ⟨_, (Derives.fold left sign same lines right).looser binds⟩
  · exact absurd refused not_pure_fails

/-- Where a climb refuses a token, its level can be completed: the tree so far is one of a level,
and no operator behind it binds tighter. -/
theorem climb_breaks {first : Parse Tree} (hf : Yields limit .operand first)
    (reads : ∀ ⦃s⦄, s.At c → Reads limit c (phrase limit .operand c) first s) {levels least : Nat}
    (positive : 0 < least) (tight : least ≤ Precedence.unary.rank)
    (enough : Precedence.unary.rank ≤ levels + least) (hr : r.At c) :
    Breaks limit c (phrase limit (.level least) c) (climb first levels least) r := by
  induction levels generalizing least r with
  | zero =>
    intro e t r' refused other
    refine ((reads hr).breaks refused other).imp ?_
    rintro - _ _ - ⟨u, operand⟩
    exact ⟨u, (Derives.tightest operand).looser tight⟩
  | succ levels ih =>
    intro e t r' refused other
    have below : ∀ k, least ≤ k → k < Precedence.unary.rank → ∀ ⦃s⦄, s.At c →
        Breaks limit c (phrase limit (.level (k + 1)) c) (climb first levels (k + 1)) s :=
      fun k _ _ _ hs => ih (by omega) (by omega) (by omega) hs
    have yields : ∀ k, least ≤ k → k < Precedence.unary.rank →
        YieldsLevel limit (k + 1) (climb first levels (k + 1)) :=
      fun k _ _ => climb_yields hf (by omega) (by omega) (by omega)
    obtain refused | ⟨u, s, operand, refused⟩ := bind_eq_error.1 refused
    · refine ((reads hr).breaks refused other).imp ?_
      rintro - _ _ - ⟨u, operand⟩
      exact ⟨u, (Derives.tightest operand).looser tight⟩
    · obtain ⟨hs, operand⟩ := hf hr operand
      let inv (u : Tree) (s : Reader) := s.At c ∧ ∃ k, least ≤ k ∧
        s.current.kind.precedence.rank ≤ k ∧ Derives limit (.level k) c r.tokens s.tokens [u]
      have start : inv u s := ⟨hs, _, tight, Nat.le_of_lt (Kind.rank_lt _), .tightest operand⟩
      refine iterate_breaks ?_ ?_ start refused other
      · rintro u v s s' ⟨hs, k, -, rank, derived⟩ h
        obtain ⟨⟨⟩, _⟩ | ⟨v, k', ⟨⟩, hs', _, tight, rfl, behind, onward⟩ :=
          fold?_spec positive yields hs h
        exact ⟨hs', _, tight, behind, onward _ (derived.looser rank)⟩
      · rintro u s e t r' ⟨hs, k, -, rank, derived⟩ refused other
        exact fold?_breaks positive rank below hs derived refused other

theorem binary_breaks (ha : again.Sound limit) (hm : again.Mending limit) (hr : r.At c) :
    Breaks limit c (phrase limit (.level Precedence.range.rank) c) (binary limit again) r :=
  climb_breaks (operand_yields ha) (fun _ hs => operand_reads ha hm hs) (by decide) (by decide)
    (by decide) hr

/-- Where the sign behind what can not be assigned to is refused, a whole expression stands before.
-/
theorem assignment_reads (ha : again.Sound limit) (hm : again.Mending limit) (hr : r.At c) :
    Reads limit c (phrase limit .assignment c) (assignment limit again) r where
  takes := (assignment_yields ha).takes hr
  breaks := by
    intro e t r' refused other
    obtain refused | ⟨l, s, left, refused⟩ := bind_eq_error.1 refused
    · refine (binary_breaks ha hm hr refused other).imp ?_
      rintro - _ _ - ⟨u, value⟩
      exact ⟨u, .plain value⟩
    obtain ⟨hs, left⟩ := binary_yields ha hr left
    rw [current_bind] at refused
    split at refused
    · rename_i assigns
      obtain ⟨op, sign⟩ := Kind.isAssignment_iff.1 assigns
      split at refused
      · rename_i assignable
        have spans : InRow limit c [row [Span.sign (.assign op), Newlines],
            phrase limit .assignment c]
            (do
              let _ ← advanceLines
              return Tree.node s.current [l, ← again .assignment]) s :=
          .bind (advanceLines_reads hs sign (by simp)) fun _ _ h₁ =>
            .bind (hm .assignment h₁) fun _ _ _ => .pure
        refine (Mends.after left.grafts
          (spans (by simp [fillable_assignment]) refused other)).imp ?_
        rintro - _ _ - ⟨_, left, _, ⟨_, ⟨a, sign, rfl⟩, _, lines, rfl⟩, _, ⟨u, value⟩, rfl⟩
        exact ⟨_, .assign left (Kind.isAssignable_iff.1 assignable) sign lines value⟩
      · obtain ⟨-, -, rfl⟩ := refuse_eq_error.1 refused
        refine (Mends.taken hs left.grafts).imp ?_
        exact fun _ _ _ _ left => ⟨_, .plain left⟩
    · exact absurd refused not_pure_fails

theorem expression_reads (ha : again.Sound limit) (hm : again.Mending limit) (hr : r.At c) :
    Reads limit c (phrase limit .expression c) (expression limit again) r where
  takes := (expression_yields ha).takes hr
  breaks := by
    intro e t r' refused other
    have inner := nested_reads hr fun _ hs => assignment_reads ha hm hs
    refine (inner.breaks refused other).imp ?_
    rintro within _ _ - ⟨u, inner⟩
    exact ⟨u, .expression within inner⟩

end AresSyntax.Grammar
