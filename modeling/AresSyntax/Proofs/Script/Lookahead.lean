import AresSyntax.Proofs.Completeness.Statements
import AresSyntax.Proofs.Script.Programs

/-!
How far a statement looks. A statement is found whatever stands behind the token that follows it
and the one after that, also a fault.

* `Reader.nth`, `Reader.Moved`: the outcomes that a reader sees, and a reader further on;
* `Reader.Ahead`: a reader before tokens of which the last ones may be made up;
* `Script.length_tokens_of_run`: a run asks for as many outcomes as it takes tokens;
* `Reader.Ahead.statement`: a statement is found without the tokens that are made up.
-/
namespace AresSyntax
namespace Reader

variable {r r' r'' : Reader} {T : Nat → Outcome} {i m : Nat}

/-- The outcomes that a reader has still to see, beginning with its two tokens. -/
def nth (r : Reader) : Nat → Outcome
  | 0 => .ok r.current
  | 1 => .ok r.next
  | i + 2 => r.stream.nth i

theorem standsAt_nth (r : Reader) : r.StandsAt r.nth 0 :=
  ⟨nofun, rfl, rfl, fun k => congrArg r.nth (show k + 2 = 0 + 2 + k by omega)⟩

theorem StandsAt.nth_eq (h : r.StandsAt T i) (k : Nat) : r.nth k = T (i + k) :=
  match k with
  | 0 => h.current.symm
  | 1 => h.next.symm
  | k + 2 => (h.ahead k).trans (congrArg T (by omega))

/-- The reader `r'` sees what `r` sees behind the next `m` outcomes. -/
structure Moved (m : Nat) (r r' : Reader) : Prop where
  nth : ∀ k, r'.nth k = r.nth (m + k)
  less : r'.ahead.length ≤ r.ahead.length

theorem Moved.refl (r : Reader) : r.Moved 0 r := ⟨fun k => by rw [Nat.zero_add], Nat.le_refl _⟩

theorem Moved.trans {m' : Nat} (h : r.Moved m r') (h' : r'.Moved m' r'') :
    r.Moved (m + m') r'' :=
  ⟨fun k => by rw [h'.nth, h.nth, Nat.add_assoc], Nat.le_trans h'.less h.less⟩

theorem moved_of_advance {t : Token} (taken : Parse.advance r = .ok t r') : r.Moved 1 r' := by
  refine ⟨fun k => ?_, ?_⟩
  · exact (r.standsAt_nth.advance taken).1.nth_eq k
  · obtain ⟨u, s, more, rfl, rfl⟩ := advance_eq_ok.1 taken
    rw [TokenStream.next_eq] at more
    obtain ⟨_, rfl⟩ := Prod.mk.inj more
    simp [ahead, TokenStream.drop]

end Reader

/-- The request ends where `r'` stands, with a result or an error of the grammar. -/
def Parse.EndsAt {α : Type} (r' : Reader) : EStateM.Result ParseFault Reader α → Prop
  | .ok _ s => s = r'
  | .error (.grammar _ _) s => s = r'
  | .error (.reading _) _ => False

namespace Script

variable {α : Type} {limit : Option Nat} {s : Script α} {r r' : Reader}

theorem exists_advance_of_endsAt {next : Token → Script α}
    (h : Parse.EndsAt r' ((take next).run limit r)) :
    ∃ t r₁, Parse.advance r = .ok t r₁ ∧ Parse.EndsAt r' ((next t).run limit r₁) := by
  cases taken : Parse.advance r with
  | ok t r₁ => exact ⟨t, r₁, rfl, run_take taken ▸ h⟩
  | error f r₁ =>
    obtain ⟨x, rfl, -⟩ := r.standsAt_nth.advance_error taken
    rw [run_take_error taken] at h
    exact h.elim

/-- At the end of a text a run gets no further. -/
theorem current_of_run_at_end (h : Parse.EndsAt r' (s.run limit r)) (regular : r.Regular)
    (last : r.current.kind = .endOfText) : r'.current.kind = .endOfText := by
  induction s generalizing r with
  | done b | refuse e =>
    cases h
    exact last
  | look next ih => exact ih _ _ _ h regular last
  | take next ih =>
    rw [run_take (Reader.advance_at_end regular last)] at h
    exact ih _ h regular last
  | enter level next ih =>
    cases beyond : limit.any (· < r.depth + 1) with
    | true =>
      rw [run_enter_refused beyond] at h
      cases h
      exact last
    | false =>
      rw [run_enter beyond] at h
      exact ih h ⟨regular.pending, regular.next, regular.current⟩ last
  | leave next ih => exact ih h ⟨regular.pending, regular.next, regular.current⟩ last
  | mark inside next ih => exact ih h ⟨regular.pending, regular.next, regular.current⟩ last

/-- Before the end of a text, a run takes as many tokens as it asks for. -/
theorem length_tokens_of_run (h : Parse.EndsAt r' (s.run limit r)) (regular : r.Regular)
    (goes : r'.current.kind ≠ .endOfText) :
    r.tokens.length = s.reads limit r + r'.tokens.length := by
  induction s generalizing r with
  | done b | refuse e =>
    cases h
    exact (Nat.zero_add _).symm
  | look next ih => exact ih _ _ _ h regular
  | take next ih =>
    have present : r.current.kind ≠ .endOfText :=
      fun last => goes (current_of_run_at_end h regular last)
    obtain ⟨t, r₁, taken, later⟩ := exists_advance_of_endsAt h
    obtain ⟨place, same, tokens⟩ := Reader.advance_spec regular.at taken
    rw [tokens (same ▸ present), List.length_cons, ih t later place.regular]
    simp only [reads, taken]
    omega
  | enter level next ih =>
    cases beyond : limit.any (· < r.depth + 1) with
    | true =>
      rw [run_enter_refused beyond] at h
      cases h
      simp only [reads, beyond, if_true]
      exact (Nat.zero_add _).symm
    | false =>
      rw [run_enter beyond] at h
      simp only [reads, beyond, Bool.false_eq_true, if_false]
      exact ih h ⟨regular.pending, regular.next, regular.current⟩
  | leave next ih => exact ih h ⟨regular.pending, regular.next, regular.current⟩
  | mark inside next ih => exact ih h ⟨regular.pending, regular.next, regular.current⟩

/-- The script of statements at the top, with fewer than `n` tokens. -/
def statement (n : Nat) : Script Tree :=
  (Story.reading n .statement [] 0 n (Nat.le_refl n) rfl).script

end Script

namespace Grammar

variable {limit : Option Nat} {n : Nat} {r : Reader}

theorem reading_statement_run (top : r.depth = 0) (room : r.work < n) :
    reading limit n .statement r = (Script.statement n).run limit r := by
  have told := (Story.reading n .statement [] 0 n (Nat.le_refl n) rfl).tells ⟨limit, 0, .same⟩ r
    ⟨top, room, nofun⟩
  simp only [Nat.zero_add, Reader.recast_same,
    Parse.recastResult_same Tree.recast_same] at told
  exact told

end Grammar

theorem upToEnd_append_end {ts : List Token} {e : Token} (others : ∀ t ∈ ts, t.kind ≠ .endOfText)
    (last : e.kind = .endOfText) : upToEnd (ts ++ [e]) = ts ++ [e] := by
  induction ts with
  | nil => exact upToEnd_cons_of_eq last []
  | cons t ts ih =>
    rw [List.cons_append, upToEnd_cons_of_ne (others t List.mem_cons_self),
      ih fun u hu => others u (List.mem_cons_of_mem _ hu)]

theorem TokenStream.listing_tokens (ts : List Token) (location : Location) :
    listing ⟨ts.map .ok, .endOfText location⟩ = (ts ++ [.atEnd location], none) := by
  induction ts with
  | nil => rfl
  | cons t ts ih => exact congrArg (Prod.map (t :: ·) id) ih

theorem TokenStream.nth_tokens {ts : List Token} {location : Location} {k : Nat} {t : Token}
    (h : (ts ++ [.atEnd location])[k]? = some t) :
    nth ⟨ts.map .ok, .endOfText location⟩ k = .ok t := by
  rw [List.getElem?_append] at h
  split at h
  · simp [nth, h]
  · rename_i beyond
    have none : (ts.map Except.ok : List Outcome)[k]? = none :=
      List.getElem?_eq_none_iff.2 (by simpa using beyond)
    have last : k - ts.length = 0 := by
      have inside := (List.getElem?_eq_some_iff.1 h).1
      simpa using inside
    rw [last] at h
    cases h
    simp only [nth, none]
    rfl

/-- The reader stands at the top of a program before the tokens `ts` and the end token at
`location`. Of all these the last `hidden` ones are made up, and what the reader would see in their
place is not known. -/
structure Reader.Ahead (n hidden : Nat) (ts : List Token) (location : Location) (r : Reader) :
    Prop where
  place : r.At .top
  room : r.ahead.length < n
  few : ts.length < n
  others : ∀ t ∈ ts, t.kind ≠ .endOfText
  shown : ∀ k t, k + hidden ≤ ts.length → (ts ++ [.atEnd location])[k]? = some t → r.nth k = .ok t

namespace Reader

variable {limit : Option Nat} {n hidden : Nat} {r r' : Reader} {as bs ts : List Token} {a b : Token}
  {location : Location} {u : Tree}

theorem Ahead.moved (h : r.Ahead n hidden (as ++ bs) location) (place : r'.At .top)
    (moved : r.Moved as.length r') : r'.Ahead n hidden bs location where
  place := place
  room := Nat.lt_of_le_of_lt moved.less h.room
  few := by
    have few := h.few
    rw [List.length_append] at few
    omega
  others t ht := h.others t (List.mem_append_right _ ht)
  shown k t hk token := by
    rw [moved.nth]
    refine h.shown (as.length + k) t (by rw [List.length_append]; omega) ?_
    rwa [List.append_assoc, List.getElem?_append_right (Nat.le_add_right _ _),
      Nat.add_sub_cancel_left]

/-- A token is taken if the one behind the next is true. -/
theorem Ahead.advance (h : r.Ahead n hidden (a :: bs) location) (seen : hidden < bs.length) :
    ∃ r', Parse.advance r = .ok a r' ∧ r'.Ahead n hidden bs location ∧ r.Moved 1 r' := by
  have current : r.current = a := Except.ok.inj (h.shown 0 a (by simp; omega) rfl)
  obtain ⟨t, token⟩ : ∃ t, (a :: bs ++ [.atEnd location])[2]? = some t := by
    refine ⟨_, List.getElem?_eq_getElem ?_⟩
    simp only [List.length_append, List.length_cons, List.length_nil]
    omega
  have lookahead : r.stream.nth 0 = .ok t :=
    h.shown 2 t (by simp only [List.length_cons]; omega) token
  have more : r.stream.next = (.ok t, r.stream.drop 1) := by rw [TokenStream.next_eq, lookahead]
  have taken := advance_eq_ok.2 ⟨t, _, more, current, rfl⟩
  have moved := moved_of_advance taken
  have first : r.Ahead n hidden ([a] ++ bs) location := h
  exact ⟨_, taken, first.moved (advance_spec h.place taken).1 moved, moved⟩

section
variable (h : r.Ahead n hidden (a :: b :: ts) location) (seen : hidden ≤ ts.length + 1)
include h seen

theorem Ahead.first : r.current = a ∧ r.next = b := by
  constructor
  · exact Except.ok.inj (h.shown 0 a (by simp only [List.length_cons]; omega) rfl)
  · exact Except.ok.inj (h.shown 1 b (by simp only [List.length_cons]; omega) rfl)

theorem Ahead.nth_onto {k : Nat} {t : Token}
    (token : (a :: b :: (ts ++ [.atEnd location]))[k]? = some t) :
    (r.onto ⟨ts.map .ok, .endOfText location⟩).nth k = .ok t := by
  obtain ⟨current, next⟩ := h.first seen
  match k with
  | 0 => exact congrArg Except.ok (current.trans (Option.some.inj token))
  | 1 => exact congrArg Except.ok (next.trans (Option.some.inj token))
  | k + 2 => exact TokenStream.nth_tokens token

/-- With all tokens made true, a reader ahead stands before them. -/
theorem Ahead.before : (r.onto ⟨ts.map .ok, .endOfText location⟩).Before .top
    (a :: b :: (ts ++ [.atEnd location])) := by
  obtain ⟨current, next⟩ := h.first seen
  have present : a.kind ≠ .endOfText := h.others a List.mem_cons_self
  have present' : b.kind ≠ .endOfText := h.others b (List.mem_cons_of_mem _ List.mem_cons_self)
  refine ⟨⟨⟨?_, ?_, ?_⟩, h.place.context⟩, ?_, ?_⟩
  · intro t pending
    obtain ⟨u, hu, same⟩ := List.mem_map.1 pending
    obtain rfl := Except.ok.inj same
    exact h.others u (List.mem_cons_of_mem _ (List.mem_cons_of_mem _ hu))
  · exact fun last => absurd last (next ▸ present')
  · exact fun last => absurd last (current ▸ present)
  · exact congrArg Prod.snd (TokenStream.listing_tokens ts location)
  · simp only [tokens, onto, TokenStream.listing_tokens, current, next]
    have all := upToEnd_append_end (e := .atEnd location) h.others rfl
    exact all

end

theorem Moved.of_stream (current : r'.nth 0 = r.nth m) (next : r'.nth 1 = r.nth (m + 1))
    (stream : r'.stream = r.stream.drop m) : r.Moved m r' := by
  refine ⟨fun k => ?_, ?_⟩
  · match k with
    | 0 => exact current
    | 1 => exact next
    | k + 2 =>
      change r'.stream.nth k = _
      rw [stream, TokenStream.nth_drop]
      rfl
  · simp [ahead, stream, TokenStream.drop]

/-- A statement whose tokens are all there is found, and asks for one outcome for each of them. -/
theorem Before.statement_reads {x : Token}
    (before : r.Before .top (as ++ x :: bs ++ [.atEnd location]))
    (derived : Derives limit .statement .top (as ++ x :: bs ++ [.atEnd location])
      (x :: bs ++ [.atEnd location]) [u])
    (ends : x.kind.endsReturn) (present : x.kind ≠ .endOfText) (work : r.work < n)
    (few : (as ++ x :: bs).length < n) : ∃ r', (Script.statement n).run limit r = .ok u r' ∧
      (Script.statement n).reads limit r = as.length := by
  obtain ⟨r', found, behind⟩ := Grammar.reading_complete n .statement derived
    (.inl (by simp only [List.length_append, List.length_cons, List.length_nil] at few ⊢; omega))
    ends before
  rw [Grammar.reading_statement_run (congrArg Context.depth before.context) work] at found
  refine ⟨r', found, ?_⟩
  have ended : Parse.EndsAt r' ((Script.statement n).run limit r) := by
    rw [found]
    rfl
  have count := Script.length_tokens_of_run ended before.regular (behind.current ▸ present)
  rw [before.tokens, behind.tokens] at count
  simp only [List.length_append, List.length_cons] at count
  omega

/-- A statement is found if the token behind it and the one after that are true, whatever stands
behind them. It is found in the text where all tokens are true, and asks for one outcome for each of
its tokens there; the reader itself has the same outcomes as far as these go. -/
theorem Ahead.statement (h : r.Ahead n hidden (as ++ bs) location) (seen : hidden < bs.length)
    (derived : Derives limit .statement .top (as ++ bs ++ [.atEnd location])
      (bs ++ [.atEnd location]) [u])
    (ends : (firstKind bs).endsReturn) : ∃ r', Grammar.reading limit n .statement r = .ok u r' ∧
      r'.Ahead n hidden bs location ∧ r.Moved as.length r' := by
  have solid : 0 < as.length := by
    have less := derived.length_lt rfl
    simp only [List.length_append] at less
    omega
  obtain ⟨x, bs', rfl⟩ := List.exists_cons_of_length_pos (Nat.lt_of_le_of_lt (Nat.zero_le _) seen)
  obtain ⟨a, b, ts, cut⟩ : ∃ a b ts, as ++ x :: bs' = a :: b :: ts := by
    match as with
    | [a] => exact ⟨a, x, bs', rfl⟩
    | a :: b :: as => exact ⟨a, b, as ++ x :: bs', rfl⟩
  have length := congrArg List.length cut
  simp only [List.length_append, List.length_cons] at length seen
  have whole := h
  rw [cut] at whole
  have before := whole.before (by omega)
  have same_nth {k : Nat} {t : Token} := whole.nth_onto (k := k) (t := t) (by omega)
  generalize same : r.onto ⟨ts.map .ok, .endOfText location⟩ = q at before same_nth
  have tokens : as ++ x :: bs' ++ [.atEnd location] = a :: b :: (ts ++ [.atEnd location]) := by
    rw [cut]; rfl
  rw [← tokens] at before
  have work : q.work < n := by
    have few := h.few
    subst same
    refine Nat.lt_of_le_of_lt (work_le _) ?_
    simp only [List.length_append, onto, ahead, List.length_cons, List.length_map] at few ⊢
    omega
  obtain ⟨q', found, reads⟩ := before.statement_reads derived ends
    (h.others x (List.mem_append_right _ List.mem_cons_self)) work h.few
  have agree : ∀ k < as.length + 2, ∃ t, q.nth k = .ok t ∧ r.nth k = .ok t := by
    intro k hk
    obtain ⟨t, token⟩ : ∃ t, (as ++ x :: bs' ++ [.atEnd location])[k]? = some t := by
      refine ⟨_, List.getElem?_eq_getElem ?_⟩
      simp only [List.length_append, List.length_cons, List.length_nil]
      omega
    refine ⟨t, same_nth (tokens ▸ token), h.shown k t ?_ token⟩
    simp only [List.length_append, List.length_cons]
    omega
  have back : r = q.onto r.stream := by subst same; rfl
  have run : (Script.statement n).run limit (q.onto r.stream) = _ :=
    Script.run_onto _ fun k hk => by
      obtain ⟨t, first, second⟩ := agree (k + 2) (by omega)
      exact second.trans first.symm
  rw [← back, found, reads] at run
  have result : Grammar.reading limit n .statement r =
      .ok u (q'.onto (r.stream.drop as.length)) := by
    rw [Grammar.reading_statement_run (congrArg Context.depth h.place.context)
      (Nat.lt_of_le_of_lt (work_le r) h.room), run]
    rfl
  have stands := Script.lands limit (Script.statement n) q.standsAt_nth
  rw [found, reads, Nat.zero_add] at stands
  have place := (Grammar.reading_sound n .statement h.place result).1
  have moved : r.Moved as.length (q'.onto (r.stream.drop as.length)) := by
    refine .of_stream ?_ ?_ rfl
    · obtain ⟨t, first, second⟩ := agree as.length (by omega)
      exact (stands.current.symm.trans first).trans second.symm
    · obtain ⟨t, first, second⟩ := agree (as.length + 1) (by omega)
      exact (stands.next.symm.trans first).trans second.symm
  exact ⟨_, result, h.moved place moved, moved⟩

end Reader
end AresSyntax
