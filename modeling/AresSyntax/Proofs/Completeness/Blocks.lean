import AresSyntax.Proofs.Soundness.Blocks
import AresSyntax.Proofs.Reader.Taking
import AresSyntax.Proofs.Tree.Chains

/-!
Blocks and subroutines find what the grammar derives. Each rule takes the longest phrase it can,
so what stands behind a phrase must not go on with it.

* `Kind.continues`, `Goal.endsBefore`: where the phrase of a goal comes to its end;
* `Room`: as many rules may wait as a phrase can need;
* `Grammar.CompleteUpTo`: every goal finds its phrase, if there is room for it;
* `statements_complete`, `block_complete`, `parameters_complete`: the rules.
-/
namespace AresSyntax

/-- The kinds that open a subscript or a call behind an expression. -/
def Kind.opensTrailer : Kind → Bool
  | mark .openParen | mark .openBracket => true
  | _ => false

/-- The kinds with which an expression goes on. -/
def Kind.continues : Kind → Bool
  | binary _ | assign _ => true
  | k => k.opensTrailer

/-- Whether the phrase of a goal ends before a kind of token. -/
def Goal.endsBefore (k : Kind) : Goal → Bool
  | statement => k.endsReturn
  | expression | assignment => !k.continues
  | operand => !k.opensTrailer

/-- Holds if `most` rules may wait and this is enough for the phrase between `ts` and `rest`: either
for its tokens, or for the levels of nesting that the limit leaves at the place `c` and `more` rules
that wait on levels of their own. -/
def Room (limit : Option Nat) (most : Nat) (c : Context) (ts rest : List Token) (more : Nat) :
    Prop :=
  ts.length ≤ most + rest.length ∨ ∃ n ∈ limit, c.depth ≤ n ∧ n + more ≤ most + c.depth

section
variable {limit : Option Nat} {most most' more more' : Nat} {c : Context}
  {ts ts' rest rest' : List Token}

theorem Room.imp (room : Room limit most c ts rest more)
    (tokens : ts.length ≤ most + rest.length → ts'.length ≤ most' + rest'.length)
    (chains : most + more' ≤ most' + more) : Room limit most' c ts' rest' more' := by
  obtain enough | ⟨n, limited, within, enough⟩ := room
  · exact .inl (tokens enough)
  · exact .inr ⟨n, limited, within, by omega⟩

/-- A level of nesting more is one that the limit has no more left. -/
theorem Room.deeper (room : Room limit most c ts rest more) (within : c.deeper.Within limit) :
    Room limit most c.deeper ts rest (1 + more) := by
  obtain enough | ⟨n, limited, -, enough⟩ := room
  · exact .inl enough
  · refine .inr ⟨n, limited, within n limited, ?_⟩
    simp only [Context.deeper]
    omega

/-- What is below a node needs no more than the node. -/
theorem Room.children {t : Token} {us : List Tree}
    (room : Room limit most c ts rest (1 + (Tree.node t us).chain Kind.waits)) :
    Room limit most c ts rest (1 + Tree.chainAll Kind.waits us) :=
  room.imp id (Nat.add_le_add_left (Nat.add_le_add_left (Tree.chainAll_le_chain _ _ _) 1) _)

theorem Room.body (room : Room limit most c ts rest more) : Room limit most c.body ts rest more :=
  room

/-- No rule may wait, so a phrase with a token finds no room where it needs a rule or a level. -/
theorem Room.pos (room : Room limit 0 c ts rest more) (taken : rest.length < ts.length)
    (needs : 0 < more ∨ c.deeper.Within limit) : False := by
  obtain enough | ⟨n, limited, within, enough⟩ := room
  · omega
  · obtain needs | deeper := needs
    · omega
    · have less := deeper n limited
      simp only [Context.deeper] at less
      omega

end

/-- The rules that a goal adds to those of its levels. -/
def Goal.waiting : Goal → Nat
  | expression => 0
  | statement | assignment | operand => 1

/-- Holds for a grammar that finds each phrase there is room for, where `rest` follows the phrase
and does not go on with it. -/
def Grammar.CompleteUpTo (limit : Option Nat) (most : Nat) (again : Grammar) : Prop :=
  ∀ (g : Goal) ⦃c : Context⦄ ⦃ts rest : List Token⦄ ⦃u : Tree⦄,
    Derives limit g.phrase c ts rest [u] →
      Room limit most c ts rest (g.waiting + u.chain Kind.waits) →
        g.endsBefore (firstKind rest) → Takes c ts rest (again g) u

/-- Only a line end or what follows the line ends can stand first. -/
theorem Newlines.starts {ts rest : List Token} (h : Newlines ts rest) :
    firstKind ts = .mark .newline ∨ firstKind ts = firstKind rest := by
  cases h with
  | none => exact .inr rfl
  | next newline _ => exact .inl newline

theorem Separator.endsReturn {ts rest : List Token} (h : Separator ts rest) :
    (firstKind ts).endsReturn := by
  cases h with
  | semicolon semicolon _ => simp [firstKind, semicolon, Kind.endsReturn]
  | newline newline _ => simp [firstKind, newline, Kind.endsReturn]

namespace Parse

variable {limit : Option Nat} {p : Phrase} {c : Context} {ts ts₁ ts₂ rest : List Token}
  {us : List Tree} {x : Token}

/-- Holds for a request that finds each phrase `p` between `ts` and `rest` which ends before a
comma or at the very end and has one of the trees `us`. -/
def FindsItems (limit : Option Nat) (p : Phrase) (c : Context) (ts rest : List Token)
    (us : List Tree) (item : Parse Tree) : Prop :=
  ∀ ⦃ts' rest' u⦄, Derives limit p c ts' rest' [u] → u ∈ us → ts'.length ≤ ts.length →
    rest.length ≤ rest'.length → firstKind rest' = .mark .comma ∨ rest' = rest →
      Takes c ts' rest' item u

theorem FindsItems.mono {vs : List Tree} {item : Parse Tree}
    (h : FindsItems limit p c ts rest us item) (less : ts₁.length ≤ ts.length) (fewer : vs ⊆ us) :
    FindsItems limit p c ts₁ rest vs item :=
  fun _ _ _ derived one before behind stop =>
    h derived (fewer one) (Nat.le_trans before less) behind stop

/-- Items between commas: the first, and those behind the first. -/
theorem items_found {item : Parse Tree} (hp : p.solid) (hn : p.startsWith (.mark .newline) = false)
    (hi : Yields limit p item) (h : Derives limit (.items p) c ts rest us)
    (stop : firstKind rest ≠ .mark .comma) (found : FindsItems limit p c ts rest us item) :
    ∃ v vs mid, us = v :: vs ∧ Takes c ts mid item v ∧
      Takes c mid rest (collect (nextItem? item)) vs := by
  have adv := nextItem?_advancing hp hi
  generalize hq : Phrase.items p = q at h
  induction h with
  | lastItem last =>
    cases hq
    have item := found last (List.mem_singleton_self _) (Nat.le_refl _) (Nat.le_refl _) (.inr rfl)
    refine ⟨_, [], _, rfl, item, ?_⟩
    exact .collect_stop adv (.check (by simpa [stop] using .pure))
  | nextItem first comma lines others _ ih =>
    cases hq
    have hf := first.suffix.length_le
    have hl := lines.suffix.length_le
    have ho := others.suffix.length_le
    rw [List.length_cons] at hf
    obtain ⟨v, vs, mid, rfl, head, tail⟩ :=
      ih stop (found.mono (by omega) (List.subset_cons_self _ _)) rfl
    have item := found first List.mem_cons_self (Nat.le_refl _) (by rw [List.length_cons]; omega)
      (.inl comma)
    refine ⟨_, v :: vs, _, rfl, item, ?_⟩
    refine .collect_next adv (.check ?_) tail
    simp only [firstKind_cons, comma, decide_true, if_true]
    exact .bind (.advanceLines (by simp [comma]) lines (others.not_starts hn)) (.bind head .pure)
  | _ => cases hq

theorem commaSeparated_complete {item : Parse Tree} (hp : p.solid)
    (hn : p.startsWith (.mark .newline) = false) (hi : Yields limit p item)
    (h : Derives limit (.items p) c ts rest us) (stop : firstKind rest ≠ .mark .comma)
    (found : FindsItems limit p c ts rest us item) : Takes c ts rest (commaSeparated item) us := by
  obtain ⟨v, vs, mid, rfl, head, tail⟩ := items_found hp hn hi h stop found
  exact .bind head (.bind tail .pure)

/-- A list between line ends. The line ends before it are all taken at once, also where the list
is empty. -/
theorem listUntil_complete {item : Parse Tree} {closing : Mark} (hp : p.solid)
    (hn : p.startsWith (.mark .newline) = false) (hm : p.startsWith (.mark closing) = false)
    (hc : closing ≠ .newline) (hi : Yields limit p item) (before : Newlines ts ts₁)
    (h : Derives limit (.list p) c ts₁ ts₂ us) (behind : Newlines ts₂ (x :: rest))
    (last : x.kind = .mark closing) (other : closing ≠ .comma)
    (found : FindsItems limit p c ts₁ ts₂ us item) :
    ∃ ts' rest', Newlines ts ts' ∧ firstKind ts' ≠ .mark .newline ∧ Newlines rest' (x :: rest) ∧
      Takes c ts' rest' (listUntil (.mark closing) item) us := by
  cases h with
  | emptyList =>
    refine ⟨x :: rest, x :: rest, before.trans behind, by simp [last, hc], .none, .check ?_⟩
    simp only [firstKind_cons, last, decide_true, if_true]
    exact .pure
  | someItems items =>
    refine ⟨ts₁, ts₂, before, items.not_starts hn, behind, .check ?_⟩
    simp only [items.not_starts hm, decide_false, Bool.false_eq_true, if_false]
    refine commaSeparated_complete hp hn hi items (fun h => ?_) found
    obtain newline | same := behind.starts
    · simp [h] at newline
    · simp [h, last] at same
      exact other same.symm

end Parse

namespace Grammar
open Parse

variable {limit : Option Nat} {most : Nat} {again : Grammar} {c : Context}
  {ts rest : List Token} {u : Tree} {us : List Tree}

theorem separator_complete {otherwise : Parse Unit} (h : Separator ts rest)
    (other : firstKind rest ≠ .mark .newline) : Takes c ts rest (separator otherwise) () := by
  cases h with
  | semicolon semicolon lines =>
    apply Takes.check
    simp only [firstKind_cons, semicolon, decide_true, if_true]
    exact .bind (.advanceLines (by simp [semicolon]) lines other) .pure
  | newline newline lines =>
    apply Takes.check
    simp only [firstKind_cons, newline, reduceCtorEq, decide_false, Bool.false_eq_true, if_false,
      Kind.mark.injEq]
    apply Takes.check
    simp only [firstKind_cons, newline, decide_true, if_true]
    exact .skipNewlines (.next newline lines) other

theorem separator_otherwise {otherwise : Parse Unit} (semicolon : firstKind ts ≠ .mark .semicolon)
    (newline : firstKind ts ≠ .mark .newline) (h : Takes c ts rest otherwise ()) :
    Takes c ts rest (separator otherwise) () := by
  apply Takes.check
  simp only [semicolon, decide_false, Bool.false_eq_true, if_false]
  apply Takes.check
  simp only [newline, decide_false, Bool.false_eq_true, if_false]
  exact h

theorem CompleteUpTo.statement (ha : again.CompleteUpTo limit most)
    (h : Derives limit .statement c ts rest [u])
    (room : Room limit most c ts rest (1 + u.chain Kind.waits))
    (ends : (firstKind rest).endsReturn) : Takes c ts rest (again .statement) u :=
  ha .statement h room ends

/-- Holds for a step that takes the statements up to a token of some kind: nothing at that token,
and otherwise a statement with what separates it from the next one. -/
structure FindsStatements (closing : Kind) (again : Grammar) (step : Parse (Option Tree)) :
    Prop where
  stop : ∀ {c ts}, firstKind ts = closing → Takes c ts ts step none
  next : ∀ {c ts ts₁ ts₂ u}, (firstKind ts).startsStatement → Takes c ts ts₁ (again .statement) u →
    Separator ts₁ ts₂ → firstKind ts₂ ≠ .mark .newline → Takes c ts ts₂ step (some u)
  last : ∀ {c ts e rest u}, (firstKind ts).startsStatement →
    Takes c ts (e :: rest) (again .statement) u → e.kind = closing →
      Takes c ts (e :: rest) step (some u)

theorem statements_complete {closing : Kind} {step : Parse (Option Tree)} {e : Token}
    (ha : again.CompleteUpTo limit most) (adv : step.Advancing)
    (hs : FindsStatements closing again step) (h : Derives limit .statements c ts (e :: rest) us)
    (room : Room limit most c ts (e :: rest) (1 + Tree.chainAll Kind.waits us))
    (last : e.kind = closing)
    (ends : closing.endsReturn) (other : closing ≠ .mark .newline) :
    Takes c ts (e :: rest) (collect step) us := by
  generalize hp : Phrase.statements = p at h
  generalize hr : e :: rest = behind at h
  induction h with
  | noStatement => exact .collect_stop adv (hs.stop (hr ▸ last))
  | lastStatement statement =>
    subst hr
    have found := ha.statement statement (room.imp id (by simp)) (by rwa [firstKind_cons, last])
    exact .collect_next adv (hs.last statement.starts found last) (.collect_stop adv (hs.stop last))
  | nextStatement first separator others _ ih =>
    subst hr
    have hf := first.suffix.length_le
    have hl := separator.suffix.length_le
    have ho := others.suffix.length_le
    rw [Tree.chainAll_cons] at room
    have found := ha.statement first (room.imp (fun _ => by omega) (by omega)) separator.endsReturn
    have start := others.statements_not_newline (by rwa [firstKind_cons, last])
    have behind := ih (room.imp (fun _ => by omega) (by omega)) hp rfl
    exact .collect_next adv (hs.next first.starts found separator start) behind
  | _ => cases hp

theorem blockSeparator_closed {e : Token} (closing : e.kind = .mark .closeBrace) :
    Takes c (e :: rest) (e :: rest) blockSeparator () := by
  apply separator_otherwise
  · simp [closing]
  · simp [closing]
  · exact .check (by simpa [closing] using .pure)

/-- A block goes on where a statement can start. -/
theorem startsStatement_inside {k : Kind} (h : k.startsStatement) :
    k ∉ [.mark .closeBrace, .endOfText] := by
  simp only [List.mem_cons, List.not_mem_nil, or_false]
  rintro (rfl | rfl)
  · exact absurd h (by decide)
  · exact absurd h (by decide)

theorem blockStatement?_finds :
    FindsStatements (.mark .closeBrace) again (blockStatement? again) where
  stop hk := by
    apply Takes.of_cons
    rintro t us rfl
    apply Takes.current
    rw [firstKind_cons] at hk
    simp only [hk, List.mem_cons, true_or, if_true]
    exact .pure
  next starts found separator other := by
    apply Takes.of_cons
    rintro t us rfl
    apply Takes.current
    rw [firstKind_cons] at starts
    rw [if_neg (startsStatement_inside starts)]
    exact .bind found (.bind (separator_complete separator other) .pure)
  last starts found closing := by
    apply Takes.of_cons
    rintro t us rfl
    apply Takes.current
    rw [firstKind_cons] at starts
    rw [if_neg (startsStatement_inside starts)]
    exact .bind found (.bind (blockSeparator_closed closing) .pure)

theorem block_complete (hs : again.Sound limit) (ha : again.CompleteUpTo limit most)
    (h : Derives limit .block c ts rest [u])
    (room : Room limit (most + 1) c ts rest (1 + u.chain Kind.waits)) :
    Takes c ts rest (block limit again) u := by
  cases h with
  | block before opening lines within inner closing =>
    have start := inner.statements_not_newline (by simp [closing])
    have adv := (blockStatement?_takes hs).advancing
    have hb := before.suffix.length_le
    have hl := lines.suffix.length_le
    simp only [List.length_cons] at hb
    have found := statements_complete ha adv blockStatement?_finds inner
      ((room.deeper within).imp (fun _ => by rw [List.length_cons]; omega)
        (by rw [Tree.chain_waits_label]; omega)) closing rfl (by decide)
    apply Takes.bind (.skipNewlines before (by simp [opening]))
    apply Takes.bind (.expect opening (by decide))
    apply Takes.bind (.skipNewlines lines start)
    apply Takes.bind (.nested within found)
    exact .bind (.expect closing (by decide)) .pure

theorem identifier_takes {e : Expectation} {n : Token} (ident : n.kind = .literal .ident) :
    Takes c (n :: ts) ts (identifier e) (.leaf n) :=
  .bind (.expect ident (by decide)) .pure

theorem identifier_finds {e : Expectation} :
    FindsItems limit .name c ts rest us (identifier e) := by
  intro ts' rest' u derived _ _ _ _
  cases derived with
  | name ident => exact identifier_takes ident

theorem parameters_complete (h : Derives limit .parameters c ts rest [u]) :
    Takes c ts rest parameters u := by
  cases h with
  | parameters opening before names behind closing =>
    obtain ⟨ts', rest', before, other, behind, names⟩ :=
      listUntil_complete rfl rfl rfl (by decide) identifier_yields before names behind closing
        (by decide) identifier_finds
    rw [parameters]
    simp only [check_listUntil]
    apply Takes.bind (.expect opening (by decide))
    apply Takes.bind (.skipNewlines before other)
    apply Takes.bind names
    apply Takes.bind (.skipNewlines behind (by simp [closing]))
    exact .bind (.expect closing (by decide)) .pure

/-- The parameters and the body of a subroutine, which stands at a place of its own. -/
theorem parametersAndBody_complete {ts₁ : List Token} {ps b : Tree} (hs : again.Sound limit)
    (ha : again.CompleteUpTo limit most) (params : Derives limit .parameters c ts ts₁ [ps])
    (body : Derives limit .block c.body ts₁ rest [b])
    (room : Room limit (most + 1) c ts rest (1 + Tree.chainAll Kind.waits [ps, b])) :
    Takes c ts rest (parametersAndBody limit again) [ps, b] := by
  have less := params.suffix.length_le
  simp only [Tree.chainAll_cons] at room
  have found := block_complete hs ha body (room.body.imp (fun _ => by omega) (by omega))
  exact .bind (parameters_complete params) (.bind (.inSubroutine found) .pure)

theorem subroutineDeclaration_complete (hs : again.Sound limit)
    (ha : again.CompleteUpTo limit most) {d n : Token} {ts₁ : List Token} {ps b : Tree}
    (start : d.kind = .keyword .defWord) (ident : n.kind = .literal .ident)
    (params : Derives limit .parameters c ts ts₁ [ps])
    (body : Derives limit .block c.body ts₁ rest [b])
    (room : Room limit (most + 1) c ts rest (1 + Tree.chainAll Kind.waits [ps, b])) :
    Takes c (d :: n :: ts) rest (subroutineDeclaration limit again)
      (.node (Label.subDecl.token d.location) [.leaf n, ps, b]) := by
  have found := parametersAndBody_complete hs ha params body room
  apply Takes.bind (.advance (by simp [start]))
  apply Takes.bind (identifier_takes ident)
  exact .bind found .pure

theorem subroutineLiteral_complete (hs : again.Sound limit)
    (ha : again.CompleteUpTo limit most) {d : Token} {ts₁ : List Token} {ps b : Tree}
    (start : d.kind = .keyword .defWord) (params : Derives limit .parameters c ts ts₁ [ps])
    (body : Derives limit .block c.body ts₁ rest [b])
    (room : Room limit (most + 1) c ts rest (1 + Tree.chainAll Kind.waits [ps, b])) :
    Takes c (d :: ts) rest (subroutineLiteral limit again)
      (.node (Label.subLiteral.token d.location) [ps, b]) := by
  have found := parametersAndBody_complete hs ha params body room
  exact .bind (.advance (by simp [start])) (.bind found .pure)

end Grammar
end AresSyntax
