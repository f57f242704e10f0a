import AresSyntax.Proofs.Scan.Outcomes
import AresSyntax.Proofs.Script.Basic

/-!
Where a run stands in the outcomes of a text. Between its steps a reader holds two outcomes that
follow each other, and all outcomes before them were tokens.

* `Reader.StandsAt`: the index of the current token;
* `Script.lands`: where a run ends, and what its fault is;
* `Script.trail_standing`: where the points of a run are;
* `Script.run_onto`: a run depends on the outcomes that it asked for, and on no other.
-/
namespace AresSyntax

/-- The current token is the outcome of `T` at the index `i`, the lookahead is the one behind it,
and the stream has those behind both. Before them there is no fault. -/
structure Reader.StandsAt (T : Nat → Outcome) (i : Nat) (r : Reader) : Prop where
  before : ∀ k < i, ∃ t, T k = .ok t
  current : T i = .ok r.current
  next : T (i + 1) = .ok r.next
  ahead : ∀ k, r.stream.nth k = T (i + 2 + k)

namespace Reader

variable {T : Nat → Outcome} {i : Nat} {r r' : Reader}

theorem StandsAt.seen (h : r.StandsAt T i) : ∀ k < i + 2, ∃ t, T k = .ok t := by
  intro k hk
  obtain less | rfl | rfl : k < i ∨ k = i ∨ k = i + 1 := by omega
  · exact h.before k less
  · exact ⟨_, h.current⟩
  · exact ⟨_, h.next⟩

theorem StandsAt.deeper (h : r.StandsAt T i) : r.deeper.StandsAt T i :=
  ⟨h.before, h.current, h.next, h.ahead⟩

theorem StandsAt.shallower (h : r.StandsAt T i) : r.shallower.StandsAt T i :=
  ⟨h.before, h.current, h.next, h.ahead⟩

theorem StandsAt.marked (h : r.StandsAt T i) (inside : Bool) : (r.marked inside).StandsAt T i :=
  ⟨h.before, h.current, h.next, h.ahead⟩

/-- Taking a token goes on by one outcome. -/
theorem StandsAt.advance {t : Token} (h : r.StandsAt T i) (taken : Parse.advance r = .ok t r') :
    r'.StandsAt T (i + 1) ∧ T i = .ok t := by
  obtain ⟨u, s, more, rfl, rfl⟩ := advance_eq_ok.1 taken
  rw [TokenStream.next_eq] at more
  obtain ⟨first, rfl⟩ := Prod.mk.inj more
  refine ⟨⟨fun k hk => h.seen k (by omega), h.next, (h.ahead 0).symm.trans first, fun k => ?_⟩,
    h.current⟩
  rw [TokenStream.nth_drop, h.ahead]
  congr 1
  omega

/-- No token can be taken where the outcome behind the lookahead is a fault. -/
theorem StandsAt.advance_error {f : ParseFault} (h : r.StandsAt T i)
    (failed : Parse.advance r = .error f r') : ∃ x, f = .reading x ∧ T (i + 2) = .error x := by
  unfold Parse.advance at failed
  rw [TokenStream.next_eq, h.ahead 0] at failed
  cases outcome : T (i + 2) with
  | ok t =>
    rw [outcome] at failed
    cases failed
  | error x =>
    rw [outcome] at failed
    cases failed
    exact ⟨x, rfl, rfl⟩

theorem start_eq (s : TokenStream) : Reader.start s =
    match s.nth 0, s.nth 1 with
    | .error f, _ => .error f
    | .ok _, .error f => .error f
    | .ok current, .ok next =>
      .ok { current, next, stream := s.drop 2, depth := 0, inSubroutine := false } := by
  unfold start
  rw [TokenStream.next_eq]
  cases s.nth 0 with
  | error f => rfl
  | ok current =>
    simp only [TokenStream.next_eq, TokenStream.nth_drop, TokenStream.drop_drop]
    cases s.nth 1 <;> rfl

/-- A reader starts with the first two outcomes of its stream. -/
theorem start_standsAt {s : TokenStream} (h : Reader.start s = .ok r) :
    r.StandsAt s.nth 0 ∧ r.depth = 0 ∧ r.inSubroutine = false := by
  rw [start_eq] at h
  cases first : s.nth 0 with
  | error f => simp [first] at h
  | ok current =>
    cases second : s.nth 1 with
    | error f => simp [first, second] at h
    | ok next =>
      rw [first, second] at h
      cases h
      exact ⟨⟨nofun, first, second, fun k => by rw [TokenStream.nth_drop]⟩, rfl, rfl⟩

/-- No reader starts where one of the first two outcomes is a fault. -/
theorem start_eq_error {s : TokenStream} {f : ReadFault} : Reader.start s = .error f ↔
    ∃ k < 2, (∀ j < k, ∃ t, s.nth j = .ok t) ∧ s.nth k = .error f := by
  have index : (∃ k < 2, (∀ j < k, ∃ t, s.nth j = .ok t) ∧ s.nth k = .error f) ↔
      s.nth 0 = .error f ∨ (∃ t, s.nth 0 = .ok t) ∧ s.nth 1 = .error f := by
    constructor
    · rintro ⟨k, less, before, fault⟩
      obtain rfl | rfl : k = 0 ∨ k = 1 := by omega
      · exact .inl fault
      · exact .inr ⟨before 0 Nat.zero_lt_one, fault⟩
    · rintro (fault | ⟨first, fault⟩)
      · exact ⟨0, by omega, nofun, fault⟩
      · exact ⟨1, by omega, fun j hj => (Nat.lt_one_iff.1 hj) ▸ first, fault⟩
  rw [index, start_eq]
  cases s.nth 0 <;> cases s.nth 1 <;> simp

/-- The reader with another stream. -/
def onto (st : TokenStream) (r : Reader) : Reader := { r with stream := st }

end Reader

namespace Parse

variable {α : Type}

/-- What a request gives, with another stream behind it. -/
def ontoResult (st : TokenStream) :
    EStateM.Result ParseFault Reader α → EStateM.Result ParseFault Reader α
  | .ok a r => .ok a (r.onto st)
  | .error f r => .error f (r.onto st)

/-- Where a run ends: with a result or an error of the grammar at the index `m`, or with the fault
behind the lookahead. An error of the grammar is found at the current token. -/
def LandsAt (T : Nat → Outcome) (m : Nat) : EStateM.Result ParseFault Reader α → Prop
  | .ok _ r => r.StandsAt T m
  | .error (.grammar _ t) r => r.StandsAt T m ∧ r.current = t
  | .error (.reading x) _ => (∀ k < m + 1, ∃ t, T k = .ok t) ∧ T (m + 1) = .error x

theorem advance_onto {r : Reader} {st : TokenStream} (agree : st.nth 0 = r.stream.nth 0) :
    advance (r.onto st) = ontoResult (st.drop 1) (advance r) := by
  unfold advance
  rw [TokenStream.next_eq, TokenStream.next_eq, ← agree]
  simp only [Reader.onto]
  cases st.nth 0 <;> rfl

end Parse

/-- The tokens taken on the way to a point are the first outcomes of a text, and the reader stands
behind them. -/
def Point.Standing (T : Nat → Outcome) (p : Point) : Prop :=
  (∀ k t, p.taken[k]? = some t → T k = .ok t) ∧ p.reader.StandsAt T p.taken.length

namespace Script

variable {α : Type} {limit : Option Nat} {T : Nat → Outcome} {i : Nat} {r : Reader}

/-- A run goes on by one outcome each time it asks for one. -/
theorem lands (limit : Option Nat) (s : Script α) (h : r.StandsAt T i) :
    Parse.LandsAt T (i + s.reads limit r) (s.run limit r) := by
  induction s generalizing r i with
  | done a => exact h
  | refuse e => exact ⟨h, rfl⟩
  | look next ih => exact ih _ _ _ h
  | take next ih =>
    cases taken : Parse.advance r with
    | ok t r' =>
      have later := ih t (h.advance taken).1
      rw [run_take taken]
      simp only [reads, taken]
      rwa [Nat.add_right_comm] at later
    | error f r' =>
      obtain ⟨x, rfl, fault⟩ := h.advance_error taken
      rw [run_take_error taken]
      simp only [reads, taken]
      exact ⟨h.seen, fault⟩
  | enter level next ih =>
    cases beyond : limit.any (· < r.depth + 1) with
    | true =>
      rw [run_enter_refused beyond]
      simp only [reads, beyond, if_true]
      exact ⟨h.deeper, rfl⟩
    | false =>
      rw [run_enter beyond]
      simp only [reads, beyond, Bool.false_eq_true, if_false]
      exact ih h.deeper
  | leave next ih => exact ih h.shallower
  | mark inside next ih => exact ih (h.marked inside)

/-- With a stream that agrees on the outcomes that a run asks for, the run is the same. -/
theorem run_onto (s : Script α) {st : TokenStream}
    (agree : ∀ k < s.reads limit r, st.nth k = r.stream.nth k) :
    s.run limit (r.onto st) =
      Parse.ontoResult (st.drop (s.reads limit r)) (s.run limit r) := by
  induction s generalizing r st with
  | done a => rfl
  | refuse e => rfl
  | look next ih => exact ih _ _ _ agree
  | take next ih =>
    cases taken : Parse.advance r with
    | ok t r' =>
      simp only [reads, taken] at agree ⊢
      have again := Parse.advance_onto (agree 0 (Nat.zero_lt_succ _))
      rw [taken] at again
      rw [run_take taken, run_take again, ih t]
      · rw [TokenStream.drop_drop, Nat.add_comm]
      · intro k hk
        obtain ⟨u, st', more, _, rfl⟩ := Reader.advance_eq_ok.1 taken
        rw [TokenStream.next_eq] at more
        obtain ⟨_, rfl⟩ := Prod.mk.inj more
        rw [TokenStream.nth_drop, TokenStream.nth_drop]
        exact agree (1 + k) (by omega)
    | error f r' =>
      simp only [reads, taken] at agree ⊢
      have again := Parse.advance_onto (agree 0 Nat.zero_lt_one)
      rw [taken] at again
      rw [run_take_error taken, run_take_error again]
      rfl
  | enter level next ih =>
    cases beyond : limit.any (· < r.depth + 1) with
    | true =>
      have beyond' : limit.any (· < (r.onto st).depth + 1) = true := beyond
      simp only [reads, beyond, if_true]
      rw [run_enter_refused beyond, run_enter_refused beyond']
      rfl
    | false =>
      have beyond' : limit.any (· < (r.onto st).depth + 1) = false := beyond
      simp only [reads, beyond, Bool.false_eq_true, if_false] at agree ⊢
      rw [run_enter beyond, run_enter beyond']
      exact ih agree
  | leave next ih => exact ih agree
  | mark inside next ih => exact ih agree

/-- The points of a run stand one behind the other in the outcomes of the text. -/
theorem trail_standing (s : Script α) {taken : List Token}
    (first : ∀ k t, taken[k]? = some t → T k = .ok t) (h : r.StandsAt T taken.length) :
    ∀ p ∈ s.trail limit taken r, p.Standing T := by
  induction s generalizing r taken with
  | done a | refuse e =>
    intro p hp
    obtain rfl := List.mem_singleton.1 hp
    exact ⟨first, h⟩
  | look next ih => exact ih _ _ _ first h
  | take next ih =>
    intro p hp
    rw [trail] at hp
    obtain rfl | hp := List.mem_cons.1 hp
    · exact ⟨first, h⟩
    cases run : Parse.advance r with
    | error f r' => simp [run] at hp
    | ok t r' =>
      obtain ⟨stands, outcome⟩ := h.advance run
      simp only [run] at hp
      refine ih t ?_ (by rwa [List.length_append]) p hp
      intro k u hk
      rw [List.getElem?_append] at hk
      split at hk
      · exact first k u hk
      · have index : k = taken.length := by
          have inside := (List.getElem?_eq_some_iff.1 hk).1
          rw [List.length_singleton] at inside
          omega
        subst index
        obtain rfl : t = u := by simpa using hk
        exact outcome
  | enter level next ih =>
    intro p hp
    rw [trail] at hp
    obtain rfl | hp := List.mem_cons.1 hp
    · exact ⟨first, h⟩
    obtain rfl | hp := List.mem_cons.1 hp
    · exact ⟨first, h.deeper⟩
    split at hp
    · cases hp
    · exact ih first h.deeper p hp
  | leave next ih =>
    intro p hp
    obtain rfl | hp := List.mem_cons.1 hp
    · exact ⟨first, h⟩
    · exact ih first h.shallower p hp
  | mark inside next ih =>
    intro p hp
    obtain rfl | hp := List.mem_cons.1 hp
    · exact ⟨first, h⟩
    · exact ih first (h.marked inside) p hp

end Script
end AresSyntax
