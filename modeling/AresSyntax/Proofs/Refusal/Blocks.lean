import AresSyntax.Proofs.Refusal.Mending

/-!
Where blocks and subroutines refuse a token, they can be completed. A rule that asks for others can
if these can.

* `commas_break`, `listUntil_reads`: phrases between commas;
* `statements_break`, `block_reads`: statements between braces;
* `parameters_reads`, `subroutineDeclaration_breaks`, `subroutineLiteral_breaks`: subroutines.
-/
namespace AresSyntax
namespace Parse
open AresSyntax.Span

variable {limit : Option Nat} {p : Phrase} {c : Context} {r : Reader} {item : Parse Tree}

/-- A comma and the line ends behind it, and a phrase behind both. -/
def further (D : Span) : Span := row [row [sign (.mark .comma), Newlines], D]

/-- Phrases `p` with commas between them, which are a phrase `q`: behind the first one each further
one is read with the comma before it. -/
theorem commas_break {α : Type} {step : Parse (Option α)} {q : Phrase} {ts : List Token} {u : Tree}
    (more : ∀ {ts x ts₁ ts₂ rest u us}, Derives limit p c ts (x :: ts₁) [u] →
      x.kind = .mark .comma → Newlines ts₁ ts₂ → Derives limit q c ts₂ rest us →
      Derives limit q c ts rest (u :: us))
    (takes : ∀ ⦃a s s'⦄, s.At c → step s = .ok (some a) s' → s'.At c ∧
      ∃ v x ts₁ ts₂, x.kind = .mark .comma ∧ s.tokens = x :: ts₁ ∧ Newlines ts₁ ts₂ ∧
        Derives limit p c ts₂ s'.tokens [v])
    (breaks : ∀ ⦃s⦄, s.At c → Breaks limit c (further (phrases limit q c)) step s)
    (hr : r.At c) (first : Derives limit p c ts r.tokens [u]) {e : GrammarError} {t : Token}
    {r' : Reader} (refused : collect step r = .error (.grammar e t) r')
    (other : e ≠ .nestedTooDeeply) : (phrases limit q c).Mends limit c ts r' := by
  have others : Breaks limit c (further (phrases limit q c)) (collect step) r := by
    refine collect_breaks (E := further (phrase limit p c)) ?_ breaks ?_ hr
    · intro a s s' hs h
      obtain ⟨hs', v, x, ts₁, ts₂, comma, take, lines, derived⟩ := takes hs h
      refine .inl ⟨hs', ?_⟩
      rw [take]
      have start := (Grafts.sign comma).cons (lines.grafts.cons .nil)
      exact start.cons ((Grafts.phrase derived).cons .nil)
    · rintro _ _ _ ⟨_, comma, _, ⟨v, item⟩, rfl⟩ ⟨_, ⟨_, ⟨x, kind, rfl⟩, _, lines, rfl⟩, _,
        ⟨us, items⟩, rfl⟩
      exact ⟨_, comma, _, ⟨v :: us, more item kind lines items⟩, rfl⟩
  refine (Mends.after (.phrase first) (InRow.only others (by simp) refused other)).imp ?_
  rintro - _ _ - ⟨_, ⟨v, item⟩, _, ⟨_, ⟨_, ⟨x, kind, rfl⟩, _, lines, rfl⟩, _, ⟨us, items⟩, rfl⟩,
    rfl⟩
  exact ⟨v :: us, more item kind lines items⟩

theorem nextItem?_breaks (reads : ∀ ⦃r⦄, r.At c → Reads limit c (phrase limit p c) item r)
    (fill : (phrase limit p c).Fillable limit c) (hr : r.At c) :
    Breaks limit c (further (phrases limit (.items p) c)) (nextItem? item) r := by
  intro e t r' refused other
  simp only [nextItem?, check_bind, decide_eq_true_eq] at refused
  split at refused
  · rename_i comma
    have spans : InRow limit c [row [sign (.mark .comma), Newlines], phrase limit p c]
        (do let _ ← advanceLines; return some (← item)) r :=
      .bind (advanceLines_reads hr comma (by decide)) fun _ _ h₁ => .last (reads h₁).breaks
    refine (spans (by simpa using fill) refused other).imp ?_
    rintro - _ _ - ⟨_, comma, _, ⟨u, item⟩, rfl⟩
    exact ⟨_, comma, _, ⟨[u], .lastItem item⟩, rfl⟩
  · exact absurd refused not_pure_fails

theorem commaSeparated_breaks (hi : Yields limit p item)
    (reads : ∀ ⦃r⦄, r.At c → Reads limit c (phrase limit p c) item r)
    (fill : (phrase limit p c).Fillable limit c) (hr : r.At c) :
    Breaks limit c (phrases limit (.items p) c) (commaSeparated item) r := by
  intro e t r' refused other
  rw [commaSeparated_eq] at refused
  obtain refused | ⟨u, s, first, refused⟩ := bind_eq_error.1 refused
  · refine ((reads hr).breaks refused other).imp ?_
    rintro - _ _ - ⟨u, item⟩
    exact ⟨[u], .lastItem item⟩
  · obtain ⟨hs, derived⟩ := hi hr first
    refine commas_break .nextItem ?_ (fun _ => nextItem?_breaks reads fill) hs derived
      (of_bind_pure refused) other
    intro v r r' hr h
    obtain ⟨⟨⟩, _⟩ | ⟨v, x, ts₁, ts₂, -, hr', comma, take, lines, derived⟩ := nextItem?_spec hi hr h
    exact ⟨hr', v, x, ts₁, ts₂, comma, take, lines, derived⟩

/-- Items between commas, or none before the closing sign. -/
theorem listUntil_reads {closing : Kind} (solid : p.solid) (hi : Yields limit p item)
    (reads : ∀ ⦃r⦄, r.At c → Reads limit c (phrase limit p c) item r)
    (fill : (phrase limit p c).Fillable limit c) (hr : r.At c) :
    Reads limit c (phrases limit (.list p) c) (listUntil closing item) r where
  takes := (listUntil_yields solid hi).takes hr
  breaks := by
    intro e t r' refused other
    simp only [listUntil, check_bind, decide_eq_true_eq] at refused
    split at refused
    · exact absurd refused not_pure_fails
    · refine (commaSeparated_breaks hi reads fill hr refused other).imp ?_
      rintro - _ _ - ⟨us, items⟩
      exact ⟨us, .someItems items⟩

end Parse

namespace Grammar
open Parse AresSyntax.Span

variable {limit : Option Nat} {again : Grammar} {c : Context} {r r' : Reader}

theorem separator_refuses {otherwise : Parse Unit} {e : GrammarError} {t : Token}
    (h : separator otherwise r = .error (.grammar e t) r') :
    otherwise r = .error (.grammar e t) r' := by
  simp only [separator, check_bind, decide_eq_true_eq] at h
  split at h
  · exact absurd (of_bind_pure h) not_advanceLines_refuses
  · rw [check_bind] at h
    split at h
    · exact absurd h not_skipNewlines_refuses
    · exact h

/-- A statement that is not separated from what follows was the last one. -/
theorem separated_breaks (hm : again.Mending limit) {otherwise : Parse Unit}
    (stays : ∀ {e t s s'}, otherwise s = .error (.grammar e t) s' → s = s') (hr : r.At c) :
    Breaks limit c (phrases limit .statements c)
      (do let u ← again .statement; separator otherwise; return some u) r := by
  intro e t r' refused other
  obtain refused | ⟨u, s, taken, refused⟩ := bind_eq_error.1 refused
  · refine ((hm .statement hr).breaks refused other).imp ?_
    rintro - _ _ - ⟨u, statement⟩
    exact ⟨[u], .lastStatement statement⟩
  · obtain ⟨hs, graft⟩ := (hm .statement hr).takes taken
    obtain rfl := stays (separator_refuses (of_bind_pure refused))
    refine (Mends.taken hs graft).imp ?_
    rintro - _ _ - ⟨u, statement⟩
    exact ⟨[u], .lastStatement statement⟩

/-- Statements one after the other. Behind the last one the step finds nothing more. -/
theorem statements_break {step : Parse (Option Tree)}
    (takes : ∀ ⦃u s s'⦄, s.At c → step s = .ok (some u) s' → s'.At c ∧
      (∃ ts, Derives limit .statement c s.tokens ts [u] ∧ Separator ts s'.tokens) ∨
        ∃ q, step s' = .ok none q)
    (breaks : ∀ ⦃s⦄, s.At c → Breaks limit c (phrases limit .statements c) step s) (hr : r.At c) :
    Breaks limit c (phrases limit .statements c) (collect step) r := by
  refine collect_breaks (E := row [phrase limit .statement c, Separator]) ?_ breaks ?_ hr
  · intro u s s' hs h
    obtain ⟨hs', ts, statement, separator⟩ | stop := takes hs h
    · exact .inl ⟨hs', (Grafts.phrase statement).cons (separator.grafts.cons .nil)⟩
    · exact .inr stop
  · rintro _ _ _ ⟨_, ⟨u, statement⟩, _, separator, rfl⟩ ⟨us, statements⟩
    exact ⟨u :: us, .nextStatement statement separator statements⟩

theorem blockStatements_reads (ha : again.Sound limit) (hm : again.Mending limit) (hr : r.At c) :
    Reads limit c (phrases limit .statements c) (collect (blockStatement? again)) r where
  takes := (statements_yields (blockStatement?_takes ha)).takes hr
  breaks := by
    refine statements_break ?_ ?_ hr
    · intro u s s' hs h
      simp only [blockStatement?, current_bind, ite_eq_ok, bind_eq_ok, pure_eq_ok] at h
      obtain ⟨-, ⟨⟩, -⟩ | ⟨-, v, s₁, first, _, s₂, second, same, rfl⟩ := h
      cases same
      obtain ⟨h₁, derived⟩ := ha .statement hs first
      obtain ⟨h₂, separator⟩ | closing := separator_spec h₁ second
      · exact .inl ⟨h₂, _, derived, separator⟩
      · simp only [check_bind, decide_eq_true_eq, ite_eq_ok, pure_eq_ok, refuse_eq_ok, and_false,
          or_false] at closing
        obtain ⟨closing, -, rfl⟩ := closing
        refine .inr ⟨s₁, ?_⟩
        simp [blockStatement?, closing]
    · intro s hs e t s' refused other
      simp only [blockStatement?, current_bind] at refused
      split at refused
      · exact absurd refused not_pure_fails
      · refine separated_breaks hm ?_ hs refused other
        intro e t s s' h
        rw [check_bind] at h
        split at h
        · exact absurd h not_pure_fails
        · exact (refuse_eq_error.1 h).2.2

theorem block_reads (ha : again.Sound limit) (hm : again.Mending limit) (hr : r.At c) :
    Reads limit c (phrase limit .block c) (block limit again) r where
  takes := (block_yields ha).takes hr
  breaks := by
    have spans : InRow limit c [Newlines, sign (.mark .openBrace), Newlines,
        phrases limit .statements c.deeper, sign (.mark .closeBrace)] (block limit again) r :=
      .bind (skipNewlines_reads hr) fun _ _ h₁ =>
        .bind (expect_reads h₁ (by decide) (by simp)) fun _ _ h₂ =>
          .bind (skipNewlines_reads h₂) fun _ _ h₃ =>
            .bind (nested_reads h₃ fun _ hs => blockStatements_reads ha hm hs) fun _ _ h₄ =>
              .bind (expect_reads h₄ (by decide) (by simp)) fun _ _ _ => .pure
    refine spans.breaks (by simp) ?_
    rintro within _ _ - ⟨_, before, _, ⟨o, opening, rfl⟩, _, lines, _, ⟨us, inner⟩, _,
      ⟨x, closing, rfl⟩, rfl⟩
    exact ⟨_, .block before opening lines within inner closing⟩

theorem identifier_reads {e : Expectation} (hr : r.At c) :
    Reads limit c (phrase limit .name c) (identifier e) r where
  takes := identifier_yields.takes hr
  breaks := by
    have spans : InRow limit c [sign (.literal .ident)] (identifier e) r :=
      .bind (expect_reads hr (by decide) (by simp)) fun _ _ _ => .pure
    refine spans.breaks (by simp) ?_
    rintro - _ _ - ⟨_, ⟨t, ident, rfl⟩, rfl⟩
    exact ⟨_, .name ident⟩

theorem fillable_name : (phrase limit .name c).Fillable limit c := by
  refine (fillable_ident limit c).imp ?_
  rintro _ _ _ ⟨t, ident, rfl⟩
  exact ⟨_, .name ident⟩

theorem parameters_reads (hr : r.At c) :
    Reads limit c (phrase limit .parameters c) parameters r where
  takes := parameters_yields.takes hr
  breaks := by
    have spans : InRow limit c [sign (.mark .openParen), Newlines, phrases limit (.list .name) c,
        Newlines, sign (.mark .closeParen)] parameters r := by
      simp only [parameters, check_listUntil]
      exact .bind (expect_reads hr (by decide) (by simp)) fun _ _ h₁ =>
        .bind (skipNewlines_reads h₁) fun _ _ h₂ =>
          .bind (listUntil_reads rfl identifier_yields (fun _ => identifier_reads) fillable_name h₂)
            fun _ _ h₃ => .bind (skipNewlines_reads h₃) fun _ _ h₄ =>
              .bind (expect_reads h₄ (by decide) (by simp)) fun _ _ _ => .pure
    refine spans.breaks (by simp) ?_
    rintro - _ _ - ⟨_, ⟨o, opening, rfl⟩, _, before, _, ⟨us, names⟩, _, behind, _,
      ⟨x, closing, rfl⟩, rfl⟩
    exact ⟨_, .parameters opening before names behind closing⟩

theorem fillable_parameters : (phrase limit .parameters c).Fillable limit c := by
  have parens : (row [sign (.mark .openParen), sign (.mark .closeParen)]).Fillable limit c :=
    .row (by simp)
  refine parens.imp ?_
  rintro _ _ _ ⟨_, ⟨o, opening, rfl⟩, _, ⟨x, closing, rfl⟩, rfl⟩
  exact ⟨_, .parameters opening .none .emptyList .none closing⟩

/-- The parameters and the body of a subroutine, behind which there is nothing of it. -/
theorem parametersAndBody_breaks (ha : again.Sound limit) (hm : again.Mending limit)
    (hr : r.At c) : Breaks limit c (row [phrase limit .parameters c, phrase limit .block c.body])
      (parametersAndBody limit again) r := by
  have spans : InRow limit c [phrase limit .parameters c, phrase limit .block c.body]
      (parametersAndBody limit again) r :=
    .bind (parameters_reads hr) fun _ _ h₁ =>
      .bind (inSubroutine_reads h₁ fun _ hs => block_reads ha hm hs) fun _ _ _ => .pure
  exact spans.breaks (by simp) fun _ _ _ _ held => held

theorem subroutineDeclaration_breaks (ha : again.Sound limit) (hm : again.Mending limit)
    (hr : r.At c) (start : r.current.kind = .keyword .defWord) :
    Breaks limit c (phrase limit .statement c) (subroutineDeclaration limit again) r := by
  have spans : InRow limit c [sign (.keyword .defWord), phrase limit .name c,
      row [phrase limit .parameters c, phrase limit .block c.body]]
      (subroutineDeclaration limit again) r :=
    .bind (advance_reads hr start (by decide)) fun _ _ h₁ =>
      .bind (identifier_reads h₁) fun _ _ h₂ => .last (parametersAndBody_breaks ha hm h₂)
  refine spans.breaks ?_ ?_
  · simp [fillable_name, Fillable.row, fillable_parameters]
  · rintro - _ _ - ⟨_, ⟨d, start, rfl⟩, _, ⟨n, name⟩, _, ⟨_, ⟨ps, params⟩, _, ⟨b, body⟩, rfl⟩, rfl⟩
    cases name with
    | name ident => exact ⟨_, .declaration start ident params body⟩

theorem subroutineLiteral_breaks (ha : again.Sound limit) (hm : again.Mending limit)
    (hr : r.At c) (start : r.current.kind = .keyword .defWord) :
    Breaks limit c (phrase limit .atom c) (subroutineLiteral limit again) r := by
  have spans : InRow limit c [sign (.keyword .defWord),
      row [phrase limit .parameters c, phrase limit .block c.body]]
      (subroutineLiteral limit again) r :=
    .bind (advance_reads hr start (by decide)) fun _ _ h₁ =>
      .last (parametersAndBody_breaks ha hm h₁)
  refine spans.breaks ?_ ?_
  · simp [Fillable.row, fillable_parameters]
  · rintro - _ _ - ⟨_, ⟨d, start, rfl⟩, _, ⟨_, ⟨ps, params⟩, _, ⟨b, body⟩, rfl⟩, rfl⟩
    exact ⟨_, .subroutine start params body⟩

end Grammar
end AresSyntax
