import AresSyntax.Grammar.Expression
import AresSyntax.Proofs.Soundness.Blocks

/-!
Expressions give what the grammar derives.

* `hashElements_yields`, `atom_yields`, `trailed_yields`, `operand_yields`: what stands between
  binary operators;
* `climb_yields`: operators from a level up, where no operator of these levels is left behind;
* `assignment_yields`, `expression_yields`: whole expressions.
-/
namespace AresSyntax

theorem Kind.isUnaryOperator_iff {k : Kind} : k.isUnaryOperator = true ↔
    k = .binary .minus ∨ k = .mark .bang ∨ k = .mark .tilde := by
  unfold isUnaryOperator
  split <;> simp_all

theorem Kind.isAssignment_iff {k : Kind} : k.isAssignment = true ↔ ∃ op, k = .assign op := by
  cases k <;> simp [isAssignment]

theorem Kind.isAssignable_iff {k : Kind} :
    k.isAssignable = true ↔ k = .literal .ident ∨ k = .label .subscript := by
  unfold isAssignable
  split <;> simp_all

/-- Only binary operators have a level above zero. -/
theorem Kind.binary_of_rank {k : Kind} (h : 0 < k.precedence.rank) :
    ∃ op : BinaryOp, k = .binary op ∧ op.precedence.rank = k.precedence.rank := by
  cases k with
  | binary op => exact ⟨op, rfl, rfl⟩
  | _ => exact absurd h (by simp [precedence, Precedence.rank])

theorem Kind.rank_lt (k : Kind) : k.precedence.rank < Precedence.unary.rank := by
  cases k with
  | binary op => exact op.rank_bounds.2
  | _ => simp [precedence, Precedence.rank]

/-- A phrase of a level is also one of each looser level. -/
theorem Derives.looser {limit : Option Nat} {c : Context} {ts rest : List Token} {u : Tree}
    {least k : Nat} (h : Derives limit (.level k) c ts rest [u]) (hk : least ≤ k) :
    Derives limit (.level least) c ts rest [u] := by
  induction hk with
  | refl => exact h
  | step _ ih => exact ih (.tighter h)

namespace Grammar
open Parse

variable {limit : Option Nat} {again : Grammar} {c : Context} {r r' : Reader}

theorem group_yields {u : Tree} (ha : again.Sound limit) (hr : r.At c)
    (opening : r.current.kind = .mark .openParen) (h : group again r = .ok u r') :
    r'.At c ∧ Derives limit .atom c r.tokens r'.tokens [u] := by
  simp only [group, bind_eq_ok, pure_eq_ok] at h
  obtain ⟨o, s₁, before, e, s₂, inner, _, s₃, behind, x, s₄, closing, rfl, rfl⟩ := h
  obtain ⟨h₁, rfl, ts, take, before⟩ := advanceLines_spec hr (by simp [opening]) before
  obtain ⟨h₂, inner⟩ := ha .expression h₁ inner
  obtain ⟨h₃, behind, _⟩ := skipNewlines_spec h₂ behind
  obtain ⟨h₄, closing, take'⟩ := expect_spec h₃ (by decide) closing
  exact ⟨h₄, take ▸ .group opening before inner (take' ▸ behind) closing⟩

/-- The expressions up to a closing sign, and the line ends before it. -/
theorem expressions_spec {closing : Mark} {e : Expectation} {us : List Tree}
    (ha : again.Sound limit) (hr : r.At c) (h : expressions again closing e r = .ok us r') :
    r'.At c ∧ ∃ ts x, Derives limit (.list .expression) c r.tokens ts us ∧
      Newlines ts (x :: r'.tokens) ∧ x.kind = .mark closing := by
  simp only [expressions, check_listUntil, bind_eq_ok, pure_eq_ok] at h
  obtain ⟨es, s₁, items, _, s₂, behind, x, s₃, last, rfl, rfl⟩ := h
  obtain ⟨h₁, items⟩ := listUntil_yields rfl (ha .expression) hr items
  obtain ⟨h₂, behind, _⟩ := skipNewlines_spec h₁ behind
  obtain ⟨h₃, last, take⟩ := expect_spec h₂ (by simp) last
  exact ⟨h₃, _, x, items, take ▸ behind, last⟩

theorem array_yields {u : Tree} (ha : again.Sound limit) (hr : r.At c)
    (opening : r.current.kind = .mark .openBracket) (h : array again r = .ok u r') :
    r'.At c ∧ Derives limit .atom c r.tokens r'.tokens [u] := by
  simp only [array, bind_eq_ok, pure_eq_ok] at h
  obtain ⟨o, s₁, before, es, s₂, elements, rfl, rfl⟩ := h
  obtain ⟨h₁, rfl, ts, take, before⟩ := advanceLines_spec hr (by simp [opening]) before
  obtain ⟨h₂, ts', x, elements, behind, closing⟩ := expressions_spec ha h₁ elements
  exact ⟨h₂, take ▸ .array opening before elements behind closing⟩

theorem hashElement_yields (ha : again.Sound limit) :
    Yields limit .pair (hashElement again) := by
  intro c r r' u hr h
  simp only [hashElement, current_bind, bind_eq_ok, pure_eq_ok] at h
  obtain ⟨k, s₁, key, a, s₂, arrow, _, s₃, lines, v, s₄, value, rfl, rfl⟩ := h
  obtain ⟨h₁, key⟩ := ha .expression hr key
  obtain ⟨h₂, arrow, take⟩ := expect_spec h₁ (by decide) arrow
  obtain ⟨h₃, lines, _⟩ := skipNewlines_spec h₂ lines
  obtain ⟨h₄, value⟩ := ha .expression h₃ value
  obtain ⟨ts, start⟩ := r.tokens_eq_cons
  rw [start, take] at key
  exact ⟨h₄, start ▸ .pair key arrow lines value⟩

theorem hashElement?_spec {o : Option Tree} (ha : again.Sound limit) (hr : r.At c)
    (h : hashElement? again r = .ok o r') :
    (o = none ∧ r = r') ∨
      ∃ u, o = some u ∧ r'.At c ∧ Derives limit .pair c r.tokens r'.tokens [u] := by
  simp only [hashElement?, check_bind, ite_eq_ok, bind_eq_ok, pure_eq_ok] at h
  obtain ⟨_, rfl, rfl⟩ | ⟨_, u, s, element, rfl, rfl⟩ := h
  · exact .inl ⟨rfl, rfl⟩
  · exact .inr ⟨u, rfl, hashElement_yields ha hr element⟩

theorem nextHashElement?_spec {o : Option Tree} (ha : again.Sound limit) (hr : r.At c)
    (h : nextHashElement? again r = .ok o r') :
    (o = none ∧ r = r') ∨ ∃ x ts₁ ts₂, r'.At c ∧ x.kind = .mark .comma ∧ r.tokens = x :: ts₁ ∧
      Newlines ts₁ ts₂ ∧ ((o = none ∧ ts₂ = r'.tokens) ∨
        ∃ u, o = some u ∧ Derives limit .pair c ts₂ r'.tokens [u]) := by
  simp only [nextHashElement?, check_bind, decide_eq_true_eq, ite_eq_ok, bind_eq_ok,
    pure_eq_ok] at h
  obtain ⟨comma, x, s, first, element⟩ | ⟨_, rfl, rfl⟩ := h
  · obtain ⟨hs, rfl, ts, take, lines⟩ := advanceLines_spec hr (by simp [comma]) first
    obtain ⟨rfl, rfl⟩ | ⟨u, rfl, hr', element⟩ := hashElement?_spec ha hs element
    · exact .inr ⟨_, ts, _, hs, comma, take, lines, .inl ⟨rfl, rfl⟩⟩
    · exact .inr ⟨_, ts, _, hr', comma, take, lines, .inr ⟨u, rfl, element⟩⟩
  · exact .inl ⟨rfl, rfl⟩

theorem nextHashElement?_advancing (ha : again.Sound limit) :
    (nextHashElement? again).Advancing := by
  apply @advancing_of_phrase limit .pair _ _ rfl
  intro c r r' a hr h
  obtain ⟨⟨⟩, _⟩ | ⟨x, ts₁, ts₂, hr', _, take, lines, ⟨⟨⟩, _⟩ | ⟨u, ⟨⟩, element⟩⟩ :=
    nextHashElement?_spec ha hr h
  exact ⟨hr', ts₂, _, _, take ▸ lines.suffix.trans (List.suffix_cons _ _), element,
    List.suffix_refl _⟩

theorem hashElements_yields (ha : again.Sound limit) :
    YieldsAll limit .pairs (hashElements again) := by
  intro c r r' us hr h
  simp only [hashElements, bind_eq_ok] at h
  obtain ⟨o, s, first, h⟩ := h
  obtain ⟨rfl, rfl⟩ | ⟨u, rfl, hs, derived⟩ := hashElement?_spec ha hr first
  · obtain ⟨rfl, rfl⟩ := pure_eq_ok.1 h
    exact ⟨hr, .noPair⟩
  · simp only [bind_eq_ok, pure_eq_ok] at h
    obtain ⟨others, s', more, rfl, rfl⟩ := h
    have run := (collect_eq_ok (nextHashElement?_advancing ha) hs.regular).1 more
    clear first more hr
    generalize r.tokens = ts at derived
    induction run generalizing u ts with
    | stop last =>
      obtain ⟨_, rfl⟩ | ⟨x, ts₁, ts₂, hr', comma, take, lines, ⟨_, rfl⟩ | ⟨_, ⟨⟩, _⟩⟩ :=
        nextHashElement?_spec ha hs last
      · exact ⟨hs, .lastPair derived⟩
      · exact ⟨hr', .nextPair (take ▸ derived) comma lines .noPair⟩
    | next next _ ih =>
      obtain ⟨⟨⟩, _⟩ | ⟨x, ts₁, ts₂, hs', comma, take, lines, ⟨⟨⟩, _⟩ | ⟨v, ⟨⟩, element⟩⟩ :=
        nextHashElement?_spec ha hs next
      obtain ⟨hr', others⟩ := ih _ hs' _ element
      exact ⟨hr', .nextPair (take ▸ derived) comma lines others⟩

theorem hash_yields {u : Tree} (ha : again.Sound limit) (hr : r.At c)
    (opening : r.current.kind = .mark .openBrace) (h : hash again r = .ok u r') :
    r'.At c ∧ Derives limit .atom c r.tokens r'.tokens [u] := by
  simp only [hash, bind_eq_ok, pure_eq_ok] at h
  obtain ⟨o, s₁, before, es, s₂, elements, _, s₃, behind, x, s₄, closing, rfl, rfl⟩ := h
  obtain ⟨h₁, rfl, ts, take, before⟩ := advanceLines_spec hr (by simp [opening]) before
  obtain ⟨h₂, elements⟩ := hashElements_yields ha h₁ elements
  obtain ⟨h₃, behind, _⟩ := skipNewlines_spec h₂ behind
  obtain ⟨h₄, closing, take'⟩ := expect_spec h₃ (by decide) closing
  exact ⟨h₄, take ▸ .hash opening before elements (take' ▸ behind) closing⟩

theorem atom_yields (ha : again.Sound limit) : Yields limit .atom (atom limit again) := by
  intro c r r' u hr h
  simp only [atom, current_bind] at h
  generalize kind : r.current.kind = k at h
  split at h
  case h_1 =>
    simp only [bind_eq_ok, pure_eq_ok] at h
    obtain ⟨t, s, first, rfl, rfl⟩ := h
    obtain ⟨hr', rfl, take⟩ := advance_take hr (by simp [kind]) first
    exact ⟨hr', take ▸ .literal kind⟩
  case h_2 => exact array_yields ha hr kind h
  case h_3 => exact hash_yields ha hr kind h
  case h_4 => exact group_yields ha hr kind h
  case h_5 => exact subroutineLiteral_yields ha hr kind h
  case h_6 => exact (refuse_eq_ok.1 h).elim

/-- A subscript or a call goes on from its base, which is read before. -/
theorem subscript_spec {base u : Tree} (ha : again.Sound limit) (hr : r.At c)
    (opening : r.current.kind = .mark .openBracket) (h : subscript again base r = .ok u r') :
    r'.At c ∧ r'.tokens.length < r.tokens.length ∧
      ∀ ts, Derives limit .trailed c ts r.tokens [base] →
        Derives limit .trailed c ts r'.tokens [u] := by
  simp only [subscript, bind_eq_ok, pure_eq_ok] at h
  obtain ⟨o, s₁, before, e, s₂, index, _, s₃, behind, x, s₄, closing, rfl, rfl⟩ := h
  obtain ⟨h₁, rfl, ts, take, before⟩ := advanceLines_spec hr (by simp [opening]) before
  obtain ⟨h₂, index⟩ := ha .expression h₁ index
  obtain ⟨h₃, behind, _⟩ := skipNewlines_spec h₂ behind
  obtain ⟨h₄, closing, take'⟩ := expect_spec h₃ (by decide) closing
  rw [take'] at behind
  rw [take]
  refine ⟨h₄, ?_, fun ts base => .subscript base opening before index behind closing⟩
  have := before.suffix.length_le
  have := index.suffix.length_le
  have := behind.suffix.length_le
  simp only [List.length_cons] at *
  omega

theorem call_spec {callee u : Tree} (ha : again.Sound limit) (hr : r.At c)
    (opening : r.current.kind = .mark .openParen) (h : call again callee r = .ok u r') :
    r'.At c ∧ r'.tokens.length < r.tokens.length ∧
      ∀ ts, Derives limit .trailed c ts r.tokens [callee] →
        Derives limit .trailed c ts r'.tokens [u] := by
  simp only [call, bind_eq_ok, pure_eq_ok] at h
  obtain ⟨o, s₁, before, es, s₂, arguments, rfl, rfl⟩ := h
  obtain ⟨h₁, rfl, ts, take, before⟩ := advanceLines_spec hr (by simp [opening]) before
  obtain ⟨h₂, ts', x, arguments, behind, closing⟩ := expressions_spec ha h₁ arguments
  rw [take]
  refine ⟨h₂, ?_, fun ts callee => .call callee opening before arguments behind closing⟩
  have := before.suffix.length_le
  have := arguments.suffix.length_le
  have := behind.suffix.length_le
  simp only [List.length_cons] at *
  omega

theorem trailer?_spec {base : Tree} {o : Option Tree} (ha : again.Sound limit) (hr : r.At c)
    (h : trailer? again base r = .ok o r') :
    (o = none ∧ r = r' ∧ r.current.kind ≠ .mark .openBracket ∧
      r.current.kind ≠ .mark .openParen) ∨
    ∃ u, o = some u ∧ r'.At c ∧ r'.tokens.length < r.tokens.length ∧
      ∀ ts, Derives limit .trailed c ts r.tokens [base] →
        Derives limit .trailed c ts r'.tokens [u] := by
  simp only [trailer?, current_bind] at h
  generalize kind : r.current.kind = k at h
  split at h
  case h_1 =>
    simp only [bind_eq_ok, pure_eq_ok] at h
    obtain ⟨u, s, run, rfl, rfl⟩ := h
    exact .inr ⟨u, rfl, subscript_spec ha hr kind run⟩
  case h_2 =>
    simp only [bind_eq_ok, pure_eq_ok] at h
    obtain ⟨u, s, run, rfl, rfl⟩ := h
    exact .inr ⟨u, rfl, call_spec ha hr kind run⟩
  case h_3 bracket paren =>
    obtain ⟨rfl, rfl⟩ := pure_eq_ok.1 h
    exact .inl ⟨rfl, rfl, bracket, paren⟩

theorem trailer?_advancing (ha : again.Sound limit) (base : Tree) :
    (trailer? again base).Advancing := by
  intro r a r' hr h
  obtain ⟨⟨⟩, _⟩ | ⟨u, ⟨⟩, hr', less, _⟩ := trailer?_spec ha hr.at h
  exact ⟨hr'.regular, less⟩

theorem trailed_yields (ha : again.Sound limit) : Yields limit .trailed (trailed limit again) := by
  intro c r r' u hr h
  simp only [trailed, bind_eq_ok] at h
  obtain ⟨e, s, first, more⟩ := h
  obtain ⟨hs, base⟩ := atom_yields ha hr first
  let Inv (u : Tree) (s : Reader) := s.At c ∧ Derives limit .trailed c r.tokens s.tokens [u]
  have kept : ∀ {u v s s'}, Inv u s → trailer? again u s = .ok (some v) s' → Inv v s' := by
    rintro u v s s' ⟨hs, derived⟩ h
    obtain ⟨⟨⟩, _⟩ | ⟨v, ⟨⟩, hs', _, onward⟩ := trailer?_spec ha hs h
    exact ⟨hs', onward _ derived⟩
  have start : Inv e s := ⟨hs, .untrailed base⟩
  obtain ⟨s', ⟨hs', derived⟩, last⟩ :=
    iterate_spec (trailer?_advancing ha) hs.regular start kept more
  obtain ⟨_, rfl, _⟩ | ⟨_, ⟨⟩, _⟩ := trailer?_spec ha hs' last
  exact ⟨hs', derived⟩

theorem operand_yields (ha : again.Sound limit) : Yields limit .operand (operand limit again) := by
  intro c r r' u hr h
  simp only [operand, current_bind, ite_eq_ok, bind_eq_ok, pure_eq_ok] at h
  obtain ⟨sign, s, s₁, lines, e, s₂, inner, rfl, rfl⟩ | ⟨_, run⟩ := h
  · have present : r.current.kind ≠ .endOfText := fun ends => by
      simp [ends, Kind.isUnaryOperator] at sign
    obtain ⟨h₁, rfl, ts, take, lines⟩ := advanceLines_spec hr present lines
    obtain ⟨h₂, inner⟩ := ha .operand h₁ inner
    refine ⟨h₂, take ▸ ?_⟩
    obtain minus | other := Kind.isUnaryOperator_iff.1 sign
    · simpa only [Token.asPrefixOperator, minus, if_true] using .negation minus lines inner
    · have plain : r.current.kind ≠ .binary .minus := by rcases other with h | h <;> simp [h]
      simpa only [Token.asPrefixOperator, plain, if_false] using .signed other lines inner
  · obtain ⟨hr', derived⟩ := trailed_yields ha hr run
    exact ⟨hr', .unsigned derived⟩

/-- The operands of a level, where no operator of the level is left behind. -/
def YieldsLevel (limit : Option Nat) (least : Nat) (read : Parse Tree) : Prop :=
  ∀ ⦃c : Context⦄ ⦃r r' : Reader⦄ ⦃u : Tree⦄, r.At c → read r = .ok u r' →
    r'.At c ∧ Derives limit (.level least) c r.tokens r'.tokens [u] ∧
      r'.current.kind.precedence.rank < least

/-- A folded operator goes on from its left side, whose level is no looser. -/
theorem fold?_spec {least : Nat} {right : Nat → Parse Tree} {left : Tree} {o : Option Tree}
    (hl : 0 < least) (hright : ∀ k, least ≤ k → k < Precedence.unary.rank →
      YieldsLevel limit (k + 1) (right (k + 1)))
    (hr : r.At c) (h : fold? least right left r = .ok o r') :
    (o = none ∧ r = r' ∧ r.current.kind.precedence.rank < least) ∨
    ∃ u k, o = some u ∧ r'.At c ∧ r'.tokens.length < r.tokens.length ∧ least ≤ k ∧
      r.current.kind.precedence.rank = k ∧ r'.current.kind.precedence.rank ≤ k ∧
      ∀ ts, Derives limit (.level k) c ts r.tokens [left] →
        Derives limit (.level k) c ts r'.tokens [u] := by
  simp only [fold?, current_bind, ite_eq_ok, bind_eq_ok, pure_eq_ok] at h
  obtain ⟨tight, x, s, first, e, s', second, rfl, rfl⟩ | ⟨loose, rfl, rfl⟩ := h
  · obtain ⟨op, sign, rank⟩ := Kind.binary_of_rank (Nat.lt_of_lt_of_le hl tight)
    obtain ⟨hs, rfl, ts, take, lines⟩ := advanceLines_spec hr (by simp [sign]) first
    obtain ⟨hs', right, behind⟩ := hright _ tight (Kind.rank_lt _) hs second
    refine .inr ⟨_, _, rfl, hs', ?_, tight, rfl, by omega, fun ts' left => ?_⟩
    · have := lines.suffix.length_le
      have := right.suffix.length_le
      simp only [take, List.length_cons]
      omega
    · exact .fold (take ▸ left) sign rank lines right
  · exact .inl ⟨rfl, rfl, by omega⟩

theorem fold?_advancing {least : Nat} {right : Nat → Parse Tree} (hl : 0 < least)
    (hright : ∀ k, least ≤ k → k < Precedence.unary.rank →
      YieldsLevel limit (k + 1) (right (k + 1)))
    (left : Tree) : (fold? least right left).Advancing := by
  intro r u r' hr h
  obtain ⟨⟨⟩, _⟩ | ⟨v, k, ⟨⟩, hr', less, _⟩ := fold?_spec hl hright hr.at h
  exact ⟨hr'.regular, less⟩

/-- Climbing gives the phrases of a level, as long as enough levels can wait: the tree so far is one
of a level, and no operator behind it binds tighter. -/
theorem climb_yields {first : Parse Tree} (hf : Yields limit .operand first) {levels least : Nat}
    (hl : 0 < least) (hu : least ≤ Precedence.unary.rank)
    (enough : Precedence.unary.rank ≤ levels + least) :
    YieldsLevel limit least (climb first levels least) := by
  induction levels generalizing least with
  | zero =>
    intro c r r' u hr h
    obtain ⟨hr', operand⟩ := hf hr h
    have tightest : least = Precedence.unary.rank := by omega
    exact ⟨hr', tightest ▸ .tightest operand, tightest ▸ Kind.rank_lt _⟩
  | succ levels ih =>
    intro c r r' u hr h
    have hright : ∀ k, least ≤ k → k < Precedence.unary.rank →
        YieldsLevel limit (k + 1) (climb first levels (k + 1)) :=
      fun k _ _ => ih (by omega) (by omega) (by omega)
    let Inv (u : Tree) (s : Reader) := s.At c ∧ ∃ k, least ≤ k ∧
      s.current.kind.precedence.rank ≤ k ∧ Derives limit (.level k) c r.tokens s.tokens [u]
    have kept : ∀ {u v s s'}, Inv u s →
        fold? least (climb first levels) u s = .ok (some v) s' → Inv v s' := by
      intro u v s s' ⟨hs, k, _, rank, derived⟩ h
      obtain ⟨⟨⟩, _⟩ | ⟨v, k', ⟨⟩, hs', _, tight, rfl, behind, onward⟩ := fold?_spec hl hright hs h
      exact ⟨hs', _, tight, behind, onward _ (derived.looser rank)⟩
    simp only [climb, bind_eq_ok] at h
    obtain ⟨e, s, operand, more⟩ := h
    obtain ⟨hs, operand⟩ := hf hr operand
    have start : Inv e s := ⟨hs, _, hu, Nat.le_of_lt (Kind.rank_lt _), .tightest operand⟩
    obtain ⟨s', ⟨hs', k, tight, _, derived⟩, last⟩ :=
      iterate_spec (fold?_advancing hl hright) hs.regular start kept more
    obtain ⟨_, rfl, behind⟩ | ⟨_, _, ⟨⟩, _⟩ := fold?_spec hl hright hs' last
    exact ⟨hs', derived.looser tight, behind⟩

theorem binary_yields (ha : again.Sound limit) :
    Yields limit (.level Precedence.range.rank) (binary limit again) := by
  intro c r r' u hr h
  obtain ⟨hr', derived, _⟩ :=
    climb_yields (operand_yields ha) (by decide) (by decide) (by decide) hr h
  exact ⟨hr', derived⟩

theorem assignment_yields (ha : again.Sound limit) :
    Yields limit .assignment (assignment limit again) := by
  intro c r r' u hr h
  simp only [assignment, current_bind, bind_eq_ok, ite_eq_ok, pure_eq_ok, refuse_eq_ok] at h
  obtain ⟨l, s, left, ⟨sign, ⟨assignable, x, s₁, lines, e, s₂, value, rfl, rfl⟩ | ⟨_, ⟨⟩⟩⟩ |
    ⟨_, rfl, rfl⟩⟩ := h
  · obtain ⟨hs, left⟩ := binary_yields ha hr left
    obtain ⟨op, sign⟩ := Kind.isAssignment_iff.1 sign
    obtain ⟨h₁, rfl, ts, take, lines⟩ := advanceLines_spec hs (by simp [sign]) lines
    obtain ⟨h₂, value⟩ := ha .assignment h₁ value
    exact ⟨h₂, .assign (take ▸ left) (Kind.isAssignable_iff.1 assignable) sign lines value⟩
  · obtain ⟨hs, left⟩ := binary_yields ha hr left
    exact ⟨hs, .plain left⟩

theorem expression_yields (ha : again.Sound limit) :
    Yields limit .expression (expression limit again) := by
  intro c r r' u hr h
  obtain ⟨within, s, s', hs, same, run, back, same'⟩ := nested_spec hr h
  obtain ⟨hs', inner⟩ := assignment_yields ha hs run
  exact ⟨back hs', same ▸ same' ▸ .expression within inner⟩

end Grammar
end AresSyntax
