import Mathlib.Data.List.DropRight
import AresSyntax.Proofs.Reader.Restoring
import AresSyntax.Proofs.Reader.Taking

/-!
Requests that do not tell one line end from several. Two readers are abreast if the tokens before
them differ in nothing but how many line ends stand in a row; such a request gives the same for
both, and leaves them abreast.

* `squeeze`: tokens with a single line end for every row of them;
* `Reader.Abreast`: readers before the same squeezed tokens;
* `Parse.BlindAt`: the requests that give the same for readers abreast, at a kind of current token;
* `BlindAt.skipNewlines`, `BlindAt.bind`, `BlindAt.iterate`, `BlindAt.nested`: the requests of a
  reader, and requests built from others.
-/
namespace AresSyntax

def Token.endsLine (t : Token) : Bool := t.kind = .mark .newline

/-- The tokens behind the line ends that they start with. -/
def behindLines (ts : List Token) : List Token := ts.dropWhile Token.endsLine

/-- The tokens with a single line end, the first one, for every row of line ends. -/
def squeeze : List Token → List Token
  | [] => []
  | t :: ts => t :: if t.endsLine then behindLines (squeeze ts) else squeeze ts

theorem squeeze_cons_of_ne {t : Token} (h : t.kind ≠ .mark .newline) (ts : List Token) :
    squeeze (t :: ts) = t :: squeeze ts := by
  simp [squeeze, Token.endsLine, h]

theorem behindLines_behindLines (ts : List Token) :
    behindLines (behindLines ts) = behindLines ts :=
  List.dropWhile_idempotent _ ts

/-- Line ends at the front may be dropped before or after squeezing. -/
theorem squeeze_behindLines (ts : List Token) :
    squeeze (behindLines ts) = behindLines (squeeze ts) := by
  induction ts with
  | nil => rfl
  | cons t ts ih =>
    by_cases line : t.endsLine
    · simp only [behindLines, squeeze, line, if_true, List.dropWhile_cons_of_pos] at ih ⊢
      rw [ih]
      exact (behindLines_behindLines (squeeze ts)).symm
    · simp only [behindLines, squeeze, line, if_false, List.dropWhile_cons_of_neg,
        Bool.false_eq_true, not_false_iff]

/-- A row of equal line ends is a single one. -/
theorem squeeze_row {t : Token} (line : t.kind = .mark .newline) (n : Nat) (ts : List Token) :
    squeeze (List.replicate (n + 1) t ++ ts) = t :: behindLines (squeeze ts) := by
  have ends : t.endsLine := decide_eq_true line
  induction n with
  | zero => simp [squeeze, ends]
  | succ n ih =>
    rw [List.replicate_succ, List.cons_append, squeeze, if_pos ends, ih, behindLines,
      List.dropWhile_cons_of_pos ends]
    exact congrArg (t :: ·) (behindLines_behindLines (squeeze ts))

theorem newlines_behindLines (ts : List Token) : Newlines ts (behindLines ts) := by
  induction ts with
  | nil => exact .none
  | cons t ts ih =>
    by_cases line : t.endsLine
    · rw [behindLines, List.dropWhile_cons_of_pos line]
      exact .next (of_decide_eq_true line) ih
    · rw [behindLines, List.dropWhile_cons_of_neg line]
      exact .none

theorem firstKind_behindLines (ts : List Token) : firstKind (behindLines ts) ≠ .mark .newline := by
  induction ts with
  | nil => nofun
  | cons t ts ih =>
    by_cases line : t.endsLine
    · rwa [behindLines, List.dropWhile_cons_of_pos line]
    · rw [behindLines, List.dropWhile_cons_of_neg line]
      exact of_decide_eq_false (eq_false_of_ne_true line)

namespace Reader

variable {c : Context} {r s : Reader}

theorem Before.placed {ts : List Token} (h : r.Before c ts) (d : Context) :
    (r.placed d).Before d ts :=
  ⟨⟨⟨h.regular.pending, h.regular.next, h.regular.current⟩, rfl⟩, h.clean, h.tokens⟩

theorem placed_deeper (h : r.context = c) :
    { r with depth := r.depth + 1 } = r.placed c.deeper := by
  subst h
  rfl

theorem placed_shallower (h : r.context = c.deeper) :
    { r with depth := r.depth - 1 } = r.placed c := by
  have depth : r.depth = c.depth + 1 := congrArg Context.depth h
  have inside : r.inSubroutine = c.inSubroutine := congrArg Context.inSubroutine h
  simp only [placed, depth, Nat.add_sub_cancel, ← inside]

theorem placed_body (h : r.context = c) :
    { r with inSubroutine := true } = r.placed c.body := by
  subst h
  rfl

theorem placed_behind_body (h : r.context = c.body) :
    { r with inSubroutine := c.inSubroutine } = r.placed c := by
  have depth : r.depth = c.depth := congrArg Context.depth h
  simp only [placed, ← depth]

/-- The readers stand at the place `c` of texts without faults, before tokens that differ in nothing
but how many line ends stand in a row. -/
def Abreast (c : Context) (r s : Reader) : Prop :=
  ∃ ts us, r.Before c ts ∧ s.Before c us ∧ squeeze ts = squeeze us

namespace Abreast

theorem left (h : Abreast c r s) : r.At c := by
  obtain ⟨_, _, hr, _, _⟩ := h
  exact hr.toAt

theorem right (h : Abreast c r s) : s.At c := by
  obtain ⟨_, _, _, hs, _⟩ := h
  exact hs.toAt

theorem placed (h : Abreast c r s) (d : Context) : Abreast d (r.placed d) (s.placed d) := by
  obtain ⟨ts, us, hr, hs, same⟩ := h
  exact ⟨ts, us, hr.placed d, hs.placed d, same⟩

/-- The current tokens are the same, and what is behind them is if they are no line ends. -/
theorem cons (h : Abreast c r s) : ∃ ts us, r.Before c (r.current :: ts) ∧
    s.Before c (r.current :: us) ∧ s.current = r.current ∧
    (r.current.kind ≠ .mark .newline → squeeze ts = squeeze us) := by
  obtain ⟨ts, us, hr, hs, same⟩ := h
  obtain ⟨ts, rfl⟩ : ∃ vs, ts = r.current :: vs := hr.tokens ▸ r.tokens_eq_cons
  obtain ⟨us, rfl⟩ : ∃ vs, us = s.current :: vs := hs.tokens ▸ s.tokens_eq_cons
  have first : r.current = s.current := (List.cons.inj same).1
  refine ⟨ts, us, hr, first ▸ hs, first.symm, fun other => ?_⟩
  rw [← first, squeeze_cons_of_ne other, squeeze_cons_of_ne other] at same
  exact (List.cons.inj same).2

theorem current (h : Abreast c r s) : s.current = r.current := by
  obtain ⟨_, _, _, _, same, _⟩ := h.cons
  exact same

/-- The tokens behind one that is no line end are of one kind. -/
theorem next (h : Abreast c r s) (other : r.current.kind ≠ .mark .newline)
    (more : r.current.kind ≠ .endOfText) : s.next.kind = r.next.kind := by
  obtain ⟨ts, us, hr, hs, -, same⟩ := h.cons
  obtain ⟨r', -, hr'⟩ := hr.advance more
  obtain ⟨s', -, hs'⟩ := hs.advance more
  obtain ⟨ts, rfl⟩ : ∃ vs, ts = r'.current :: vs := hr'.tokens ▸ r'.tokens_eq_cons
  obtain ⟨us, rfl⟩ : ∃ vs, us = s'.current :: vs := hs'.tokens ▸ s'.tokens_eq_cons
  rw [next_of_tokens hr.tokens, next_of_tokens hs.tokens, (List.cons.inj (same other)).1]

end Abreast
end Reader

namespace Parse

variable {α β : Type}

/-- The same result for two readers, which are abreast again, or the same token refused. -/
inductive Matched (c : Context) :
    EStateM.Result ParseFault Reader α → EStateM.Result ParseFault Reader α → Prop
  | given {a : α} {r s : Reader} (abreast : Reader.Abreast c r s) : Matched c (.ok a r) (.ok a s)
  | refused {e : GrammarError} {t : Token} {r s : Reader} :
      Matched c (.error (.grammar e t) r) (.error (.grammar e t) s)

theorem Matched.inv {c : Context} {x y : EStateM.Result ParseFault Reader α} (h : Matched c x y) :
    (∃ a r s, x = .ok a r ∧ y = .ok a s ∧ Reader.Abreast c r s) ∨
      ∃ e t r s, x = .error (.grammar e t) r ∧ y = .error (.grammar e t) s := by
  cases h with
  | given abreast => exact .inl ⟨_, _, _, rfl, rfl, abreast⟩
  | refused => exact .inr ⟨_, _, _, _, rfl, rfl⟩

/-- Holds for requests that, where the current token is of kind `k`, give the same for readers
abreast. -/
def BlindAt (k : Kind) (p : Parse α) : Prop :=
  ∀ ⦃c : Context⦄ ⦃r s : Reader⦄, Reader.Abreast c r s → r.current.kind = k → Matched c (p r) (p s)

theorem Matched.bind {c : Context} {r s : Reader} {p : Parse α} {q : α → Parse β}
    (first : Matched c (p r) (p s)) (next : ∀ a j, BlindAt j (q a)) :
    Matched c ((p >>= q) r) ((p >>= q) s) := by
  obtain ⟨a, r', s', left, right, abreast⟩ | ⟨e, t, r', s', left, right⟩ := first.inv
  · rw [bind_ok left, bind_ok right]
    exact next a _ abreast rfl
  · rw [bind_error left, bind_error right]
    exact .refused

namespace BlindAt

variable {k : Kind}

theorem pure {a : α} : BlindAt k (Pure.pure a : Parse α) := fun _ _ _ h _ => .given h

theorem refuse {e : GrammarError} : BlindAt k (Parse.refuse e : Parse α) := by
  intro c r s h _
  simp only [Parse.refuse, h.current]
  exact .refused

/-- Nothing follows a refusal. -/
theorem refuseFirst {e : GrammarError} {q : α → Parse β} :
    BlindAt k (Parse.refuse e >>= q) := by
  intro c r s h _
  change Matched c (.error (.grammar e r.current) r) (.error (.grammar e s.current) s)
  rw [h.current]
  exact .refused

theorem bind {p : Parse α} {q : α → Parse β} (hp : BlindAt k p) (hq : ∀ a j, BlindAt j (q a)) :
    BlindAt k (p >>= q) :=
  fun _ _ _ abreast hk => (hp abreast hk).bind hq

theorem ite {d : Prop} [Decidable d] {p q : Parse α} (yes : d → BlindAt k p)
    (no : ¬ d → BlindAt k q) : BlindAt k (if d then p else q) := by
  split
  · exact yes ‹_›
  · exact no ‹_›

theorem current {q : Token → Parse β} (h : ∀ t, BlindAt t.kind (q t)) :
    BlindAt k (Parse.current >>= q) := by
  intro c r s abreast _
  rw [current_bind, current_bind, abreast.current]
  exact h _ abreast rfl

/-- A choice by the kind of the current token. -/
theorem check {j : Kind} {p q : Parse β} (yes : k = j → BlindAt k p) (no : BlindAt k q) :
    BlindAt k (Parse.check j >>= fun b => if b then p else q) := by
  intro c r s abreast hk
  rw [check_bind, check_bind, abreast.current, hk]
  exact ite (fun same => yes (of_decide_eq_true same)) (fun _ => no) abreast hk

/-- A choice by whether the place is in a subroutine. -/
theorem inside {p q : Parse β} (yes : BlindAt k p) (no : BlindAt k q) :
    BlindAt k (get >>= fun r => if r.inSubroutine then p else q) := by
  intro c r s abreast hk
  have same : s.inSubroutine = r.inSubroutine :=
    congrArg Context.inSubroutine (abreast.right.context.trans abreast.left.context.symm)
  rw [get_bind, get_bind, same]
  exact ite (fun _ => yes) (fun _ => no) abreast hk

/-- A choice by the kind of the token behind the current one, which is no line end. -/
theorem next {j : Kind} {p q : Parse β} (other : k ≠ .mark .newline) (more : k ≠ .endOfText)
    (yes : BlindAt k p) (no : BlindAt k q) :
    BlindAt k (get >>= fun r => if r.next.kind = j then p else q) := by
  intro c r s abreast hk
  rw [get_bind, get_bind, abreast.next (hk ▸ other) (hk ▸ more)]
  exact ite (fun _ => yes) (fun _ => no) abreast hk

/-- Every token but a line end is taken alone. -/
theorem advance (other : k ≠ .mark .newline) : BlindAt k Parse.advance := by
  rintro c r s abreast rfl
  obtain ⟨ts, us, hr, hs, first, same⟩ := abreast.cons
  by_cases last : r.current.kind = .endOfText
  · rw [Reader.advance_at_end hr.regular last, Reader.advance_at_end hs.regular (first ▸ last),
      first]
    exact .given abreast
  · obtain ⟨r', taken, hr'⟩ := hr.advance last
    obtain ⟨s', taken', hs'⟩ := hs.advance last
    rw [taken, taken']
    exact .given ⟨ts, us, hr', hs', same other⟩

theorem expect {j : Kind} {e : Expectation} (other : j ≠ .mark .newline) :
    BlindAt k (Parse.expect j e) :=
  .check (fun same => .advance (same ▸ other)) .refuse

theorem accept {j : Kind} (other : j ≠ .mark .newline) : BlindAt k (Parse.accept j) :=
  .check (fun same => .bind (.advance (same ▸ other)) fun _ _ => .pure) .pure

/-- Both readers go on to the first token that is no line end. -/
theorem skipNewlines : BlindAt k Parse.skipNewlines := by
  intro c r s ⟨ts, us, hr, hs, same⟩ _
  obtain ⟨r', skipped, hr'⟩ :=
    Takes.skipNewlines (newlines_behindLines ts) (firstKind_behindLines ts) hr
  obtain ⟨s', skipped', hs'⟩ :=
    Takes.skipNewlines (newlines_behindLines us) (firstKind_behindLines us) hs
  rw [skipped, skipped']
  exact .given ⟨_, _, hr', hs', by rw [squeeze_behindLines, squeeze_behindLines, same]⟩

theorem advanceLines (other : k ≠ .mark .newline) : BlindAt k Parse.advanceLines :=
  .bind (.advance other) fun _ _ => .bind .skipNewlines fun _ _ => .pure

/-- By induction on the tokens left to the first reader: a step that gives something takes one. -/
theorem iterate {step : α → Parse (Option α)} (advancing : ∀ a, (step a).Advancing)
    (h : ∀ a j, BlindAt j (step a)) (a : α) : BlindAt k (Parse.iterate step a) := by
  rintro c r s abreast -
  induction size : r.tokens.length using Nat.strongRecOn generalizing a r s with
  | ind n ih =>
    have hr := abreast.left.regular
    rw [iterate_eq advancing hr, iterate_eq advancing abreast.right.regular]
    obtain ⟨o, r', s', left, right, abreast'⟩ | ⟨e, t, r', s', left, right⟩ :=
      (h a _ abreast rfl).inv
    · rw [left, right]
      cases o with
      | none => exact .given abreast'
      | some b =>
        have less := (advancing a r b r' hr left).2
        exact ih _ (size ▸ less) b abreast' rfl
    · rw [left, right]
      exact .refused

theorem collect {step : Parse (Option α)} (advancing : step.Advancing) (h : ∀ j, BlindAt j step) :
    BlindAt k (Parse.collect step) := by
  rintro c r s abreast -
  induction size : r.tokens.length using Nat.strongRecOn generalizing r s with
  | ind n ih =>
    have hr := abreast.left.regular
    rw [collect_eq advancing hr, collect_eq advancing abreast.right.regular]
    obtain ⟨o, r', s', left, right, abreast'⟩ | ⟨e, t, r', s', left, right⟩ :=
      (h _ abreast rfl).inv
    · rw [left, right]
      cases o with
      | none => exact .given abreast'
      | some a =>
        have less := (advancing r a r' hr left).2
        have others := ih _ (size ▸ less) abreast' rfl
        exact others.bind fun _ _ => .pure
    · rw [left, right]
      exact .refused

/-- The levels around both readers are the same, so that a further one is refused to both. -/
theorem nested {limit : Option Nat} {body : Parse α} (h : ∀ j, BlindAt j body) :
    BlindAt k (Parse.nested limit body) := by
  intro c r s abreast _
  have place := abreast.left.context
  have place' := abreast.right.context
  have depth : s.depth = r.depth := congrArg Context.depth (place'.trans place.symm)
  have entered := abreast.placed c.deeper
  rw [← Reader.placed_deeper place, ← Reader.placed_deeper place'] at entered
  simp only [Parse.nested, modify_bind, get_bind, depth]
  rw [depth] at entered
  split
  · change Matched c (.error (.grammar .nestedTooDeeply r.current) _)
      (.error (.grammar .nestedTooDeeply s.current) _)
    rw [abreast.current]
    exact .refused
  · obtain ⟨a, r', s', left, right, abreast'⟩ | ⟨e, t, r', s', left, right⟩ :=
      (h _ entered rfl).inv
    · rw [bind_ok left, bind_ok right]
      have behind := abreast'.placed c
      rw [← Reader.placed_shallower abreast'.left.context,
        ← Reader.placed_shallower abreast'.right.context] at behind
      exact .given behind
    · rw [bind_error left, bind_error right]
      exact .refused

theorem inSubroutine {body : Parse α} (h : ∀ j, BlindAt j body) :
    BlindAt k (Parse.inSubroutine body) := by
  intro c r s abreast _
  have entered := abreast.placed c.body
  rw [← Reader.placed_body abreast.left.context, ← Reader.placed_body abreast.right.context]
    at entered
  have inside : r.inSubroutine = c.inSubroutine :=
    congrArg Context.inSubroutine abreast.left.context
  have inside' : s.inSubroutine = c.inSubroutine :=
    congrArg Context.inSubroutine abreast.right.context
  simp only [Parse.inSubroutine, modify_bind, get_bind]
  obtain ⟨a, r', s', left, right, abreast'⟩ | ⟨e, t, r', s', left, right⟩ :=
    (h _ entered rfl).inv
  · rw [bind_ok left, bind_ok right, inside, inside']
    have behind := abreast'.placed c
    rw [← Reader.placed_behind_body abreast'.left.context,
      ← Reader.placed_behind_body abreast'.right.context] at behind
    exact .given behind
  · rw [bind_error left, bind_error right]
    exact .refused

end BlindAt
end Parse
end AresSyntax
