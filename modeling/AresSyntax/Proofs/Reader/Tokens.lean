import AresSyntax.Proofs.Reader.Results
import AresSyntax.Proofs.Grammar.First

/-!
What a reader still has to see, as the list of tokens that the grammar speaks of.

* `Reader.tokens`: the current token and those behind it, up to and with the end token or up to
  the first fault;
* `Reader.Regular`: the readers of a text, which see nothing but the end token once it is current;
* `Reader.advance_eq_ok`: taking a token takes the first of these tokens.
-/
namespace AresSyntax

/-- The tokens up to and with the first end token. -/
def upToEnd : List Token → List Token
  | [] => []
  | t :: ts => if t.kind = .endOfText then [t] else t :: upToEnd ts

theorem upToEnd_cons_of_ne {t : Token} (h : t.kind ≠ .endOfText) (ts : List Token) :
    upToEnd (t :: ts) = t :: upToEnd ts := by
  simp [upToEnd, h]

theorem upToEnd_cons_of_eq {t : Token} (h : t.kind = .endOfText) (ts : List Token) :
    upToEnd (t :: ts) = [t] := by
  simp [upToEnd, h]

theorem upToEnd_isPrefix (ts : List Token) : upToEnd ts <+: ts := by
  induction ts with
  | nil => exact List.prefix_rfl
  | cons t ts ih =>
    unfold upToEnd
    split
    · exact ⟨ts, rfl⟩
    · exact List.cons_prefix_cons.2 ⟨rfl, ih⟩

namespace Reader

def context (r : Reader) : Context := ⟨r.depth, r.inSubroutine⟩

/-- The tokens still to be seen, beginning with the current one. -/
def tokens (r : Reader) : List Token := upToEnd (r.current :: r.next :: r.stream.listing.1)

theorem tokens_eq_cons (r : Reader) : ∃ ts, r.tokens = r.current :: ts := by
  by_cases h : r.current.kind = .endOfText
  · exact ⟨_, upToEnd_cons_of_eq h _⟩
  · exact ⟨_, upToEnd_cons_of_ne h _⟩

@[simp] theorem firstKind_tokens (r : Reader) : firstKind r.tokens = r.current.kind := by
  obtain ⟨ts, h⟩ := r.tokens_eq_cons
  rw [h, firstKind_cons]

theorem current_of_tokens {r : Reader} {t : Token} {ts : List Token} (h : r.tokens = t :: ts) :
    r.current = t := by
  obtain ⟨us, hu⟩ := r.tokens_eq_cons
  rw [h] at hu
  exact (List.cons.inj hu).1.symm

theorem next_of_tokens {r : Reader} {t u : Token} {ts : List Token}
    (h : r.tokens = t :: u :: ts) : r.next = u := by
  unfold tokens at h
  by_cases ht : r.current.kind = .endOfText
  · rw [upToEnd_cons_of_eq ht] at h; cases h
  · rw [upToEnd_cons_of_ne ht] at h
    by_cases hu : r.next.kind = .endOfText
    · rw [upToEnd_cons_of_eq hu] at h; cases h; rfl
    · rw [upToEnd_cons_of_ne hu] at h; cases h; rfl

/-- Holds for the readers of a text: the end token is none of the pending ones, and once it was
read, it is all that comes. -/
structure Regular (r : Reader) : Prop where
  pending : ∀ t, .ok t ∈ r.stream.pending → t.kind ≠ .endOfText
  next : r.next.kind = .endOfText → r.stream.next = (.ok r.next, r.stream)
  current : r.current.kind = .endOfText → r.next = r.current

/-- The reader is one of a text, and stands at the place `c`. -/
structure At (r : Reader) (c : Context) : Prop where
  regular : r.Regular
  context : r.context = c

theorem Regular.at {r : Reader} (h : r.Regular) : r.At r.context := ⟨h, rfl⟩

end Reader

namespace TokenStream

theorem next_pending_subset {s s' : TokenStream} {o : Outcome} (h : s.next = (o, s')) :
    ∀ p ∈ s'.pending, p ∈ s.pending := by
  unfold next at h
  split at h <;> cases h
  · exact fun _ hp => hp
  · rename_i hs
    intro p hp
    rw [hs]
    exact List.mem_cons_of_mem _ hp

/-- A stream that gives the end token goes on to give it, if it was not among the pending ones. -/
theorem next_stays {s s' : TokenStream} {t : Token} (h : s.next = (.ok t, s'))
    (hp : .ok t ∉ s.pending) : s'.next = (.ok t, s') := by
  cases hs : s.pending with
  | nil =>
    have same : s = s' := by simpa [next, hs] using congrArg Prod.snd h
    subst same
    exact h
  | cons o os =>
    have first : o = .ok t := by simpa [next, hs] using congrArg Prod.fst h
    simp [hs, first] at hp

/-- What a stream gives first stands first in its listing. -/
theorem upToEnd_listing {s s' : TokenStream} {t : Token} (h : s.next = (.ok t, s')) :
    upToEnd s.listing.1 = upToEnd (t :: s'.listing.1) := by
  unfold next at h
  split at h
  · rename_i hs
    obtain ⟨he, rfl⟩ := Prod.mk.inj h
    cases ha : s.ending with
    | fault f => rw [ha] at he; cases he
    | endOfText l =>
      rw [ha] at he
      cases he
      simp [listing, listingOf, hs, ha, Ending.outcome, upToEnd, Token.atEnd]
  · rename_i o os hs
    cases h
    simp [listing, listingOf, hs]

/-- Only a fault ends the listing of a stream early. -/
theorem next_of_clean {s : TokenStream} (h : s.listing.2 = none) :
    ∃ t s', s.next = (.ok t, s') ∧ s'.listing.2 = none := by
  unfold next
  cases hp : s.pending with
  | nil =>
    cases he : s.ending with
    | fault f => simp [listing, listingOf, hp, he, Ending.outcome] at h
    | endOfText l => exact ⟨.atEnd l, s, rfl, h⟩
  | cons o os =>
    cases o with
    | error f => simp [listing, listingOf, hp] at h
    | ok t => exact ⟨t, _, rfl, by simpa [listing, listingOf, hp] using h⟩

end TokenStream

namespace Reader

theorem advance_eq_ok {r r' : Reader} {t : Token} :
    Parse.advance r = .ok t r' ↔ ∃ u s, r.stream.next = (.ok u, s) ∧ r.current = t ∧
      { r with current := r.next, next := u, stream := s } = r' := by
  unfold Parse.advance
  constructor
  · intro h
    split at h <;> cases h
    exact ⟨_, _, ‹_›, rfl, rfl⟩
  · rintro ⟨u, s, h, rfl, rfl⟩
    rw [h]

/-- Taking a token that is not the end takes the first of the tokens still to be seen. -/
theorem advance_spec {r r' : Reader} {c : Context} {t : Token} (hr : r.At c)
    (h : Parse.advance r = .ok t r') :
    r'.At c ∧ r.current = t ∧ (t.kind ≠ .endOfText → r.tokens = t :: r'.tokens) := by
  obtain ⟨hr, hc⟩ := hr
  obtain ⟨u, s, hn, rfl, rfl⟩ := advance_eq_ok.1 h
  refine ⟨⟨⟨?_, ?_, ?_⟩, hc⟩, rfl, fun ht => ?_⟩
  · intro v hv
    exact hr.pending v (TokenStream.next_pending_subset hn _ hv)
  · intro hu
    exact TokenStream.next_stays hn fun hp => hr.pending u hp hu
  · intro hk
    rw [hr.next hk] at hn
    exact (Except.ok.inj (Prod.mk.inj hn).1).symm
  · have hu := TokenStream.upToEnd_listing hn
    simp only [tokens]
    rw [upToEnd_cons_of_ne ht]
    by_cases hk : r.next.kind = .endOfText
    · rw [upToEnd_cons_of_eq hk, upToEnd_cons_of_eq hk]
    · rw [upToEnd_cons_of_ne hk, upToEnd_cons_of_ne hk, hu]

/-- At the end of a text taking the token changes nothing. -/
theorem advance_at_end {r : Reader} (hr : r.Regular) (h : r.current.kind = .endOfText) :
    Parse.advance r = .ok r.current r := by
  have hn := hr.current h
  rw [advance_eq_ok]
  exact ⟨r.next, r.stream, hr.next (hn ▸ h), rfl, by cases r; cases hn; rfl⟩

/-- The reader stands at the place `c` of a text without faults, before the tokens `ts`. -/
structure Before (r : Reader) (c : Context) (ts : List Token) : Prop extends r.At c where
  clean : r.stream.listing.2 = none
  tokens : r.tokens = ts

theorem Before.current {r : Reader} {c : Context} {t : Token} {ts : List Token}
    (h : r.Before c (t :: ts)) : r.current = t := current_of_tokens h.tokens

theorem Before.firstKind {r : Reader} {c : Context} {ts : List Token} (h : r.Before c ts) :
    r.current.kind = firstKind ts := by
  rw [← h.tokens, firstKind_tokens]

/-- In a text without faults every token but the end can be taken. -/
theorem Before.advance {r : Reader} {c : Context} {t : Token} {ts : List Token}
    (h : r.Before c (t :: ts)) (ht : t.kind ≠ .endOfText) :
    ∃ r', Parse.advance r = .ok t r' ∧ r'.Before c ts := by
  obtain ⟨u, s, hn, hs⟩ := TokenStream.next_of_clean h.clean
  have taken : Parse.advance r = .ok t _ := advance_eq_ok.2 ⟨u, s, hn, h.current, rfl⟩
  obtain ⟨place, _, htokens⟩ := advance_spec h.toAt taken
  exact ⟨_, taken, place, hs, (List.cons.inj ((htokens ht).symm.trans h.tokens)).2⟩

end Reader
end AresSyntax
