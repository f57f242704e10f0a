import AresSyntax.Grammar.Block
import AresSyntax.Proofs.Reader.Lines

/-!
Blocks and subroutines give what the grammar derives. A rule that asks for others is sound if the
others are.

* `Yields`, `YieldsAll`: all that a request gives is a phrase with these trees;
* `Sound`: every goal gives its own phrase;
* `statements_yields`, `block_yields`, `subroutineDeclaration_yields`: the rules.
-/
namespace AresSyntax

/-- The phrase that a goal asks for. -/
def Goal.phrase : Goal → Phrase
  | .statement => .statement
  | .expression => .expression
  | .assignment => .assignment
  | .operand => .operand

namespace Parse

/-- Wherever `read` gives trees, what it took is a phrase `p` with these trees. -/
def YieldsAll (limit : Option Nat) (p : Phrase) (read : Parse (List Tree)) : Prop :=
  ∀ ⦃c : Context⦄ ⦃r r' : Reader⦄ ⦃us : List Tree⦄, r.At c → read r = .ok us r' →
    r'.At c ∧ Derives limit p c r.tokens r'.tokens us

/-- Wherever `read` gives a tree, what it took is a phrase `p` with this tree. -/
def Yields (limit : Option Nat) (p : Phrase) (read : Parse Tree) : Prop :=
  ∀ ⦃c : Context⦄ ⦃r r' : Reader⦄ ⦃u : Tree⦄, r.At c → read r = .ok u r' →
    r'.At c ∧ Derives limit p c r.tokens r'.tokens [u]

variable {limit : Option Nat} {p : Phrase} {c : Context} {r r' : Reader} {u : Tree}
  {us : List Tree}

/-- A step that takes a phrase with a token in it, and maybe more, takes a token. -/
theorem advancing_of_phrase {α : Type} {step : Parse (Option α)} (hp : p.solid)
    (hs : ∀ {c : Context} {r r' : Reader} {a : α}, r.At c → step r = .ok (some a) r' →
      r'.At c ∧ ∃ ts rest us, ts <:+ r.tokens ∧ Derives limit p c ts rest us ∧
        r'.tokens <:+ rest) :
    step.Advancing := by
  intro r a r' hr h
  obtain ⟨hr', ts, rest, us, before, derived, behind⟩ := hs hr.at h
  have less := derived.length_lt hp
  have := before.length_le
  have := behind.length_le
  exact ⟨hr'.regular, by omega⟩

/-- The item behind a comma, if one follows. -/
def nextItem? {α : Type} (item : Parse α) : Parse (Option α) := do
  if ← check (.mark .comma) then
    let _ ← advanceLines
    return some (← item)
  else return none

theorem commaSeparated_eq {α : Type} (item : Parse α) :
    commaSeparated item = do return (← item) :: (← collect (nextItem? item)) := rfl

theorem nextItem?_spec {item : Parse Tree} {o : Option Tree} (hi : Yields limit p item)
    (hr : r.At c) (h : nextItem? item r = .ok o r') :
    (o = none ∧ r = r') ∨ ∃ u x ts₁ ts₂, o = some u ∧ r'.At c ∧ x.kind = .mark .comma ∧
      r.tokens = x :: ts₁ ∧ Newlines ts₁ ts₂ ∧ Derives limit p c ts₂ r'.tokens [u] := by
  simp only [nextItem?, check_bind, decide_eq_true_eq, ite_eq_ok, bind_eq_ok, pure_eq_ok] at h
  obtain ⟨comma, x, s, first, u, s', second, rfl, rfl⟩ | ⟨_, rfl, rfl⟩ := h
  · obtain ⟨hs, rfl, ts, take, lines⟩ := advanceLines_spec hr (by simp [comma]) first
    obtain ⟨hr', derived⟩ := hi hs second
    exact .inr ⟨u, _, ts, _, rfl, hr', comma, take, lines, derived⟩
  · exact .inl ⟨rfl, rfl⟩

theorem nextItem?_advancing {item : Parse Tree} (hp : p.solid) (hi : Yields limit p item) :
    (nextItem? item).Advancing := by
  apply advancing_of_phrase hp
  intro c r r' a hr h
  obtain ⟨⟨⟩, _⟩ | ⟨u, x, ts₁, ts₂, ⟨⟩, hr', _, take, lines, derived⟩ := nextItem?_spec hi hr h
  exact ⟨hr', ts₂, _, _, take ▸ lines.suffix.trans (List.suffix_cons _ _), derived,
    List.suffix_refl _⟩

/-- Items between commas. -/
theorem commaSeparated_yields {item : Parse Tree} (hp : p.solid) (hi : Yields limit p item) :
    YieldsAll limit (.items p) (commaSeparated item) := by
  intro c r r' us hr h
  simp only [commaSeparated_eq, bind_eq_ok, pure_eq_ok] at h
  obtain ⟨u, s, first, others, s', more, rfl, rfl⟩ := h
  obtain ⟨hs, derived⟩ := hi hr first
  have run := (collect_eq_ok (nextItem?_advancing hp hi) hs.regular).1 more
  clear first more hr
  generalize r.tokens = ts at derived
  induction run generalizing u ts with
  | stop last =>
    obtain ⟨_, rfl⟩ | ⟨_, _, _, _, ⟨⟩, _⟩ := nextItem?_spec hi hs last
    exact ⟨hs, .lastItem derived⟩
  | next next _ ih =>
    obtain ⟨⟨⟩, _⟩ | ⟨v, x, ts₁, ts₂, ⟨⟩, hs', comma, take, lines, item⟩ :=
      nextItem?_spec hi hs next
    obtain ⟨hr', items⟩ := ih _ hs' _ item
    exact ⟨hr', .nextItem (take ▸ derived) comma lines items⟩

/-- Items between commas, unless the closing sign stands there at once. -/
def listUntil {α : Type} (closing : Kind) (item : Parse α) : Parse (List α) := do
  if ← check closing then pure [] else commaSeparated item

theorem check_listUntil {α β : Type} {closing : Kind} {item : Parse α} {f : List α → Parse β} :
    (check closing >>= fun b => if b = true then pure [] >>= f else commaSeparated item >>= f) =
      listUntil closing item >>= f := by
  funext r
  unfold listUntil
  by_cases h : r.current.kind = closing
  · simp [h]
  · simp [h]

theorem listUntil_yields {item : Parse Tree} {closing : Kind} (hp : p.solid)
    (hi : Yields limit p item) : YieldsAll limit (.list p) (listUntil closing item) := by
  intro c r r' us hr h
  simp only [listUntil, check_bind, ite_eq_ok, pure_eq_ok] at h
  obtain ⟨_, rfl, rfl⟩ | ⟨_, some⟩ := h
  · exact ⟨hr, .emptyList⟩
  · obtain ⟨hr', items⟩ := commaSeparated_yields hp hi hr some
    exact ⟨hr', .someItems items⟩

/-- What is read one level further in. -/
theorem nested_spec {α : Type} {body : Parse α} {a : α} (hr : r.At c)
    (h : nested limit body r = .ok a r') :
    c.deeper.Within limit ∧ ∃ s s', s.At c.deeper ∧ s.tokens = r.tokens ∧ body s = .ok a s' ∧
      (s'.At c.deeper → r'.At c) ∧ s'.tokens = r'.tokens := by
  obtain ⟨within, s', run, rfl⟩ := nested_eq_ok.1 h
  obtain ⟨⟨hp, hn, hc⟩, rfl⟩ := hr
  refine ⟨within, { r with depth := r.depth + 1 }, s', ⟨⟨hp, hn, hc⟩, rfl⟩, rfl, run, ?_, rfl⟩
  rintro ⟨⟨hp, hn, hc⟩, place⟩
  refine ⟨⟨hp, hn, hc⟩, ?_⟩
  simp only [Reader.context, Context.deeper, Context.mk.injEq] at place ⊢
  exact ⟨by omega, place.2⟩

/-- What is read in the body of a subroutine. -/
theorem inSubroutine_spec {α : Type} {body : Parse α} {a : α} (hr : r.At c)
    (h : inSubroutine body r = .ok a r') :
    ∃ s s', s.At c.body ∧ s.tokens = r.tokens ∧ body s = .ok a s' ∧
      (s'.At c.body → r'.At c) ∧ s'.tokens = r'.tokens := by
  obtain ⟨s', run, rfl⟩ := inSubroutine_eq_ok.1 h
  obtain ⟨⟨hp, hn, hc⟩, rfl⟩ := hr
  refine ⟨{ r with inSubroutine := true }, s', ⟨⟨hp, hn, hc⟩, rfl⟩, rfl, run, ?_, rfl⟩
  rintro ⟨⟨hp, hn, hc⟩, place⟩
  refine ⟨⟨hp, hn, hc⟩, ?_⟩
  simp only [Reader.context, Context.body, Context.mk.injEq] at place ⊢
  exact ⟨place.1, trivial⟩

end Parse

/-- A grammar is sound if every goal gives its own phrase. -/
def Grammar.Sound (limit : Option Nat) (again : Grammar) : Prop :=
  ∀ g : Goal, Parse.Yields limit g.phrase (again g)

namespace Grammar
open Parse

variable {limit : Option Nat} {c : Context} {r r' : Reader}

theorem separator_spec {otherwise : Parse Unit} {u : Unit} (hr : r.At c)
    (h : separator otherwise r = .ok u r') :
    (r'.At c ∧ Separator r.tokens r'.tokens) ∨ otherwise r = .ok u r' := by
  simp only [separator, check_bind, decide_eq_true_eq, ite_eq_ok, bind_eq_ok, pure_eq_ok] at h
  obtain ⟨semicolon, x, s, first, _, rfl⟩ | ⟨_, ⟨newline, lines⟩ | ⟨_, other⟩⟩ := h
  · obtain ⟨hr', rfl, ts, take, lines⟩ := advanceLines_spec hr (by simp [semicolon]) first
    exact .inl ⟨hr', take ▸ .semicolon semicolon lines⟩
  · obtain ⟨hr', lines, other⟩ := skipNewlines_spec hr lines
    exact .inl ⟨hr', lines.separator (by simp [newline, other.symm])⟩
  · exact .inr other

/-- Holds for a step that takes a statement and what separates it from the next one, or finds that
none can follow. -/
def TakesStatement (limit : Option Nat) (step : Parse (Option Tree)) : Prop :=
  ∀ ⦃c : Context⦄ ⦃r r' : Reader⦄ ⦃o : Option Tree⦄, r.At c → step r = .ok o r' →
    (o = none ∧ r = r') ∨ ∃ u ts, o = some u ∧ r'.At c ∧
      Derives limit .statement c r.tokens ts [u] ∧ (Separator ts r'.tokens ∨
        ts = r'.tokens ∧ (firstKind ts).startsStatement = false)

theorem TakesStatement.advancing {step : Parse (Option Tree)} (hs : TakesStatement limit step) :
    step.Advancing := by
  apply @advancing_of_phrase limit .statement _ _ rfl
  intro c r r' a hr h
  obtain ⟨⟨⟩, _⟩ | ⟨u, ts, _, hr', derived, behind⟩ := hs hr h
  refine ⟨hr', _, ts, _, List.suffix_refl _, derived, ?_⟩
  obtain separator | ⟨rfl, _⟩ := behind
  · exact separator.suffix
  · exact List.suffix_refl _

theorem statements_yields {step : Parse (Option Tree)} (hs : TakesStatement limit step) :
    YieldsAll limit .statements (collect step) := by
  intro c r r' us hr h
  have run := (collect_eq_ok hs.advancing hr.regular).1 h
  clear h
  induction run with
  | stop last =>
    obtain ⟨_, rfl⟩ | ⟨_, _, ⟨⟩, _⟩ := hs hr last
    exact ⟨hr, .noStatement⟩
  | next first _ ih =>
    obtain ⟨⟨⟩, _⟩ | ⟨u, ts, ⟨⟩, hr', derived, behind⟩ := hs hr first
    obtain ⟨hr', others⟩ := ih hr'
    obtain separator | ⟨rfl, stop⟩ := behind
    · exact ⟨hr', .nextStatement derived separator others⟩
    · obtain ⟨rfl, same⟩ := others.no_statements stop
      exact ⟨hr', same ▸ .lastStatement derived⟩

theorem blockStatement?_takes {again : Grammar} (ha : again.Sound limit) :
    TakesStatement limit (blockStatement? again) := by
  intro c r r' o hr h
  simp only [blockStatement?, current_bind, ite_eq_ok, bind_eq_ok, pure_eq_ok] at h
  obtain ⟨_, rfl, rfl⟩ | ⟨_, u, s, first, _, s', second, rfl, rfl⟩ := h
  · exact .inl ⟨rfl, rfl⟩
  · obtain ⟨hs, derived⟩ := ha .statement hr first
    refine .inr ⟨u, s.tokens, rfl, ?_⟩
    obtain ⟨hr', separator⟩ | closing := separator_spec hs second
    · exact ⟨hr', derived, .inl separator⟩
    · simp only [check_bind, decide_eq_true_eq, ite_eq_ok, pure_eq_ok, refuse_eq_ok, and_false,
        or_false] at closing
      obtain ⟨closing, -, rfl⟩ := closing
      exact ⟨hs, derived, .inr ⟨rfl, by simp [closing]; rfl⟩⟩

theorem block_yields {again : Grammar} (ha : again.Sound limit) :
    Yields limit .block (block limit again) := by
  intro c r r' u hr h
  simp only [block, bind_eq_ok, pure_eq_ok] at h
  obtain ⟨_, s₁, before, o, s₂, opening, _, s₃, lines, us, s₄, inner, x, s₅, closing, rfl, rfl⟩ := h
  obtain ⟨h₁, before, _⟩ := skipNewlines_spec hr before
  obtain ⟨h₂, opening, take⟩ := expect_spec h₁ (by decide) opening
  obtain ⟨h₃, lines, _⟩ := skipNewlines_spec h₂ lines
  obtain ⟨within, i, i', hi, same, run, back, same'⟩ := nested_spec h₃ inner
  obtain ⟨hi', inner⟩ := statements_yields (blockStatement?_takes ha) hi run
  obtain ⟨h₅, closing, take'⟩ := expect_spec (back hi') (by decide) closing
  rw [same, same', take'] at inner
  exact ⟨h₅, .block (take ▸ before) opening lines within inner closing⟩

theorem identifier_yields {e : Expectation} : Yields limit .name (identifier e) := by
  intro c r r' u hr h
  simp only [identifier, bind_eq_ok, pure_eq_ok] at h
  obtain ⟨n, s, ident, rfl, rfl⟩ := h
  obtain ⟨hr', ident, take⟩ := expect_spec hr (by decide) ident
  exact ⟨hr', take ▸ .name ident⟩

theorem parameters_yields : Yields limit .parameters parameters := by
  intro c r r' u hr h
  simp only [parameters, check_listUntil, bind_eq_ok, pure_eq_ok] at h
  obtain ⟨o, s₁, opening, _, s₂, before, ns, s₃, names, _, s₄, behind, x, s₅, closing, rfl,
    rfl⟩ := h
  obtain ⟨h₁, opening, take⟩ := expect_spec hr (by decide) opening
  obtain ⟨h₂, before, _⟩ := skipNewlines_spec h₁ before
  obtain ⟨h₃, names⟩ := listUntil_yields rfl identifier_yields h₂ names
  obtain ⟨h₄, behind, _⟩ := skipNewlines_spec h₃ behind
  obtain ⟨h₅, closing, take'⟩ := expect_spec h₄ (by decide) closing
  exact ⟨h₅, take ▸ .parameters opening before names (take' ▸ behind) closing⟩

/-- The parameters and the body of a subroutine, which stands at a place of its own. -/
theorem parametersAndBody_spec {again : Grammar} {us : List Tree} (ha : again.Sound limit)
    (hr : r.At c) (h : parametersAndBody limit again r = .ok us r') :
    r'.At c ∧ ∃ ps b ts, us = [ps, b] ∧ Derives limit .parameters c r.tokens ts [ps] ∧
      Derives limit .block c.body ts r'.tokens [b] := by
  simp only [parametersAndBody, bind_eq_ok, pure_eq_ok] at h
  obtain ⟨ps, s, params, b, s', body, rfl, rfl⟩ := h
  obtain ⟨hs, params⟩ := parameters_yields hr params
  obtain ⟨i, i', hi, same, run, back, same'⟩ := inSubroutine_spec hs body
  obtain ⟨hi', body⟩ := block_yields ha hi run
  exact ⟨back hi', ps, b, _, rfl, params, same ▸ same' ▸ body⟩

theorem subroutineDeclaration_yields {again : Grammar} {u : Tree} (ha : again.Sound limit)
    (hr : r.At c) (start : r.current.kind = .keyword .defWord)
    (h : subroutineDeclaration limit again r = .ok u r') :
    r'.At c ∧ Derives limit .statement c r.tokens r'.tokens [u] := by
  simp only [subroutineDeclaration, identifier, bind_eq_ok, pure_eq_ok] at h
  obtain ⟨d, s₁, first, _, _, ⟨n, s₂, ident, rfl, rfl⟩, us, s₃, parts, rfl, rfl⟩ := h
  obtain ⟨h₁, rfl, take⟩ := advance_take hr (by simp [start]) first
  obtain ⟨h₂, ident, take'⟩ := expect_spec h₁ (by decide) ident
  obtain ⟨h₃, ps, b, ts, rfl, params, body⟩ := parametersAndBody_spec ha h₂ parts
  exact ⟨h₃, take ▸ take' ▸ .declaration start ident params body⟩

theorem subroutineLiteral_yields {again : Grammar} {u : Tree} (ha : again.Sound limit)
    (hr : r.At c) (start : r.current.kind = .keyword .defWord)
    (h : subroutineLiteral limit again r = .ok u r') :
    r'.At c ∧ Derives limit .atom c r.tokens r'.tokens [u] := by
  simp only [subroutineLiteral, bind_eq_ok, pure_eq_ok] at h
  obtain ⟨d, s₁, first, us, s₂, parts, rfl, rfl⟩ := h
  obtain ⟨h₁, rfl, take⟩ := advance_take hr (by simp [start]) first
  obtain ⟨h₂, ps, b, ts, rfl, params, body⟩ := parametersAndBody_spec ha h₁ parts
  exact ⟨h₂, take ▸ .subroutine start params body⟩

end Grammar
end AresSyntax
