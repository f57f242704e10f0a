import AresSyntax.Proofs.Grammar.Exactness
import AresSyntax.Proofs.Script.Programs

/-!
A program is parsed while its text is read, and this gives what parsing the list of its tokens
would give.

* `TokenStream.parse_of_agree_to_fault`: what is parsed depends on the outcomes up to the first
  fault;
* `TokenStream.settled`: an error of the grammar is settled by the tokens up to the lookahead;
* `parse_streaming`: where the parser stands in the outcomes of a text, and what follows from it.
-/
namespace AresSyntax
namespace TokenStream

variable {limit : Option Nat} {s s' : TokenStream} {r : Reader} {e : GrammarError} {t : Token}

theorem exists_room (q r : Reader) : ∃ n, q.work < n ∧ r.work < n :=
  ⟨q.work + r.work + 1, by omega, by omega⟩

/-- What is parsed depends on the outcomes up to and with the first fault. -/
theorem parse_of_agree_to_fault
    (agree : ∀ i, (∀ k < i, ∃ t, s.nth k = .ok t) → s'.nth i = s.nth i) :
    s'.parse ⟨limit, none⟩ = s.parse ⟨limit, none⟩ := by
  cases started : Reader.start s with
  | error f =>
    obtain ⟨k, less, before, fault⟩ := Reader.start_eq_error.1 started
    have failed : Reader.start s' = .error f := by
      refine Reader.start_eq_error.2 ⟨k, less, fun j hj => ?_, (agree k before).trans fault⟩
      rw [agree j fun i hi => before i (by omega)]
      exact before j hj
    rw [parse_of_start_error started, parse_of_start_error failed]
  | ok r =>
    obtain ⟨stands, _⟩ := Reader.start_standsAt started
    obtain ⟨n, room, room'⟩ := exists_room r (r.onto (s'.drop 2))
    refine parse_of_agree started room room' fun k hk => agree k fun j hj => ?_
    have lands := Script.lands limit (Script.program n) stands
    rw [Nat.zero_add] at lands
    unfold Parse.LandsAt at lands
    split at lands
    · exact lands.seen j (by omega)
    · exact lands.1.seen j (by omega)
    · exact lands.1 j (by omega)

/-- The first outcomes of a stream, behind which nothing can be read. -/
def cut (n : Nat) (s : TokenStream) : TokenStream :=
  ⟨(List.range n).map s.nth, .fault (.tooManyDigits 0)⟩

theorem nth_cut {n k : Nat} (h : k < n) : (s.cut n).nth k = s.nth k := by
  simp [cut, nth, h]

theorem nth_cut_self (n : Nat) : (s.cut n).nth n = .error (.tooManyDigits 0) := by
  simp [cut, nth, Ending.outcome]

theorem countP_cut (n : Nat) : ((List.range n).map s.nth).countP Outcome.isPresent ≤
    s.pending.countP Outcome.isPresent := by
  induction n generalizing s with
  | zero => exact Nat.zero_le _
  | succ n ih =>
    have later : (List.range (n + 1)).map s.nth = s.nth 0 :: (List.range n).map (s.drop 1).nth := by
      rw [List.range_succ_eq_map, List.map_cons, List.map_map]
      refine congrArg _ (List.map_congr_left fun k _ => ?_)
      rw [nth_drop, Nat.add_comm]
      rfl
    rw [later, ← countP_pending s.next_eq, List.countP_cons, List.countP_cons]
    exact Nat.add_le_add_right ih _

/-- Cutting the stream of a reader leaves no more tokens than there were. -/
theorem work_cut {i : Nat} (stands : r.StandsAt s.nth 0) :
    (r.onto ((s.cut (i + 2)).drop 2)).work ≤ r.work := by
  have left : ((s.cut (i + 2)).drop 2).pending = (List.range i).map r.stream.nth := by
    simp only [cut, drop, List.range_succ_eq_map, List.map_cons, List.map_map, List.drop_succ_cons,
      List.drop_zero]
    refine List.map_congr_left fun k _ => ?_
    rw [stands.ahead, Nat.zero_add, Nat.add_comm]
    rfl
  simp only [Reader.work, Reader.ahead, Reader.onto, left, List.countP_cons]
  have fewer := countP_cut (s := r.stream) i
  omega

/-- An error of the grammar is found where the script stands behind all that it asked for. -/
theorem exists_standsAt_of_error {n : Nat} (started : Reader.start s = .ok r) (room : r.work < n)
    (h : s.parse ⟨limit, none⟩ = .error (.grammar e t)) :
    ∃ r' : Reader, r'.StandsAt s.nth ((Script.program n).reads limit r) ∧ r'.current = t := by
  obtain ⟨stands, _⟩ := Reader.start_standsAt started
  have lands := Script.lands limit (Script.program n) stands
  rw [Nat.zero_add] at lands
  rw [parse_run started room] at h
  cases result : (Script.program n).run limit r with
  | ok a r' =>
    rw [result] at h
    cases h
  | error f r' =>
    rw [result] at h lands
    cases h
    exact ⟨r', lands⟩

/-- An error of the grammar is found at a token, and settled by the outcomes up to the one behind
it, which are tokens. Cut behind the lookahead the stream gives the same error. It can not ask for
more then, whatever is the bound for its script, and any longer stream goes the same way. -/
theorem settled (h : s.parse ⟨limit, none⟩ = .error (.grammar e t)) :
    ∃ i, s.nth i = .ok t ∧ (∀ k < i + 2, ∃ u, s.nth k = .ok u) ∧
      ∀ s' : TokenStream, (∀ k < i + 2, s'.nth k = s.nth k) →
        s'.parse ⟨limit, none⟩ = .error (.grammar e t) := by
  cases started : Reader.start s with
  | error f =>
    rw [parse_of_start_error started] at h
    cases h
  | ok r =>
    obtain ⟨stands, _⟩ := Reader.start_standsAt started
    have room : r.work < r.work + 1 := Nat.lt_succ_self _
    obtain ⟨r', place, rfl⟩ := exists_standsAt_of_error started room h
    generalize asked : (Script.program (r.work + 1)).reads limit r = i at place
    refine ⟨i, place.current, place.seen, fun s' agree => ?_⟩
    have short : (s.cut (i + 2)).parse ⟨limit, none⟩ = .error (.grammar e r'.current) := by
      rw [← h]
      refine parse_of_agree started room (Nat.lt_succ_of_le (work_cut stands)) fun k hk => ?_
      exact nth_cut (by omega)
    rw [← short]
    have started' := start_of_agree started fun k (hk : k < 2) =>
      nth_cut (s := s) (n := i + 2) (by omega)
    generalize r.onto ((s.cut (i + 2)).drop 2) = q at started'
    obtain ⟨n, room, room'⟩ := exists_room q (q.onto (s'.drop 2))
    refine parse_of_agree started' room room' fun k hk => ?_
    obtain ⟨q', place', _⟩ := exists_standsAt_of_error started' room short
    have few : (Script.program n).reads limit q ≤ i := by
      refine Nat.le_of_not_lt fun more => ?_
      obtain ⟨u, token⟩ := place'.seen (i + 2) (by omega)
      rw [nth_cut_self] at token
      cases token
    rw [agree k (by omega), nth_cut (by omega)]

/-- A fault that ends a program is the first one of its stream. -/
theorem fault_of_parse {f : ReadFault} (h : s.parse ⟨limit, none⟩ = .error (.reading f)) :
    ∃ k, (∀ j < k, ∃ t, s.nth j = .ok t) ∧ s.nth k = .error f := by
  cases started : Reader.start s with
  | error g =>
    rw [parse_of_start_error started] at h
    cases h
    obtain ⟨k, _, first⟩ := Reader.start_eq_error.1 started
    exact ⟨k, first⟩
  | ok r =>
    obtain ⟨stands, _⟩ := Reader.start_standsAt started
    have lands := Script.lands limit (Script.program (r.work + 1)) stands
    rw [parse_run started (Nat.lt_succ_self _)] at h
    cases result : (Script.program (r.work + 1)).run limit r with
    | ok a r' =>
      rw [result] at h
      cases h
    | error g r' =>
      rw [result] at h lands
      cases h
      exact ⟨_, lands⟩

end TokenStream

/-- A tree is found for texts that have their tokens. -/
theorem tokenize_of_parse {limits : Limits} {text file : String} {u : Tree}
    (h : parse limits text file = .ok u) : ∃ ts, tokenize text file = .ok ts := by
  obtain ⟨ts, read, _⟩ := parse_derives h
  exact ⟨ts, read⟩

/-- A fault that ends a program is what keeps the text from having its tokens. -/
theorem tokenize_of_parse_fault {limit : Option Nat} {text file : String} {f : ReadFault}
    (h : parse ⟨limit, none⟩ text file = .error (.reading f)) : tokenize text file = .error f := by
  obtain ⟨k, first⟩ := TokenStream.fault_of_parse h
  rw [nth_stream_eq] at first
  exact tokenize_eq_error.2 ⟨k, first⟩

/-- Where a text has a fault, its program ends with the fault, or before it. -/
theorem parse_at_fault {limit : Option Nat} {text file : String} {k : Nat} {f : ReadFault}
    (before : ∀ j < k, ∃ t, outcomes text file j = .ok t)
    (fault : outcomes text file k = .error f) :
    parse ⟨limit, none⟩ text file = .error (.reading f) ∨
      ∃ e t, parse ⟨limit, none⟩ text file = .error (.grammar e t) := by
  have refused : tokenize text file = .error f := tokenize_eq_error.2 ⟨k, before, fault⟩
  cases result : parse ⟨limit, none⟩ text file with
  | ok u =>
    obtain ⟨ts, read⟩ := tokenize_of_parse result
    rw [read] at refused
    cases refused
  | error g =>
    cases g with
    | grammar e t => exact .inr ⟨e, t, rfl⟩
    | reading g =>
      rw [tokenize_of_parse_fault result] at refused
      cases refused
      exact .inl rfl

section
variable {limit : Option Nat} {text file : String} {e : GrammarError} {t : Token} {f : ReadFault}

/-- An error of the grammar is settled by the tokens up to the one behind its own. -/
theorem parse_settled (h : parse ⟨limit, none⟩ text file = .error (.grammar e t)) :
    ∃ i, outcomes text file i = .ok t ∧ (∀ k < i + 2, ∃ u, outcomes text file k = .ok u) ∧
      ∀ s : TokenStream, (∀ k < i + 2, s.nth k = outcomes text file k) →
        s.parse ⟨limit, none⟩ = .error (.grammar e t) := by
  have settled := TokenStream.settled h
  rwa [nth_stream_eq] at settled

/-- A fault stands behind all that was seen. -/
theorem le_of_seen {n k : Nat} (seen : ∀ j < n, ∃ u, outcomes text file j = .ok u)
    (fault : outcomes text file k = .error f) : n ≤ k := by
  refine Nat.le_of_not_lt fun less => ?_
  obtain ⟨u, ok⟩ := seen k less
  rw [ok] at fault
  cases fault

/-- The outcomes before a fault settle an error of the grammar. -/
theorem parse_refused_before {text' : String} {k : Nat}
    (h : parse ⟨limit, none⟩ text file = .error (.grammar e t))
    (fault : outcomes text file k = .error f)
    (agree : ∀ j < k, outcomes text' file j = outcomes text file j) :
    parse ⟨limit, none⟩ text' file = .error (.grammar e t) := by
  obtain ⟨i, -, seen, settled⟩ := parse_settled h
  rw [parse_eq_stream]
  refine settled _ fun j hj => ?_
  rw [nth_stream_eq, agree j (Nat.lt_of_lt_of_le hj (le_of_seen seen fault))]

end

/-- At every point of a program the reader holds two consecutive outcomes of the text, and all
before them were tokens. So what is parsed depends on the outcomes up to the first fault only. Where
a tree is found, the text has its tokens; where a fault of the text is, it is the one that keeps the
text from having them; and an error of the grammar comes before all faults, is found at a token
whose lookahead was read, and would be the same with anything behind that. -/
theorem parse_streaming (limit : Option Nat) (text file : String) :
    (∀ r n, Reader.start (Cursor.ofText file text).stream = .ok r → r.work < n →
      Parse.program ⟨limit, none⟩ r = (Script.program n).run limit r ∧
      ∀ p ∈ (Script.program n).trail limit [] r, p.Standing (outcomes text file)) ∧
    (∀ text' file', (∀ i, (∀ k < i, ∃ t, outcomes text file k = .ok t) →
        outcomes text' file' i = outcomes text file i) →
      parse ⟨limit, none⟩ text' file' = parse ⟨limit, none⟩ text file) ∧
    (∀ u, parse ⟨limit, none⟩ text file = .ok u → ∃ ts, tokenize text file = .ok ts) ∧
    (∀ f, parse ⟨limit, none⟩ text file = .error (.reading f) → tokenize text file = .error f) ∧
    (∀ e t, parse ⟨limit, none⟩ text file = .error (.grammar e t) →
      ∃ i, outcomes text file i = .ok t ∧ (∀ k < i + 2, ∃ u, outcomes text file k = .ok u) ∧
        ∀ s : TokenStream, (∀ k < i + 2, s.nth k = outcomes text file k) →
          s.parse ⟨limit, none⟩ = .error (.grammar e t)) ∧
    ∀ k f, (∀ j < k, ∃ t, outcomes text file j = .ok t) → outcomes text file k = .error f →
      parse ⟨limit, none⟩ text file = .error (.reading f) ∨
        ∃ e t i, parse ⟨limit, none⟩ text file = .error (.grammar e t) ∧
          outcomes text file i = .ok t ∧ i + 2 ≤ k := by
  refine ⟨fun r n started room => ?_, fun text' file' agree => ?_,
    fun u h => tokenize_of_parse h, fun f h => tokenize_of_parse_fault h,
    fun e t h => parse_settled h, ?_⟩
  · obtain ⟨stands, top, _⟩ := Reader.start_standsAt started
    rw [nth_stream_eq] at stands
    exact ⟨Parse.program_run top room, Script.trail_standing _ (by simp) stands⟩
  · simp only [parse_eq_stream]
    refine TokenStream.parse_of_agree_to_fault fun i before => ?_
    rw [nth_stream_eq, nth_stream_eq]
    rw [nth_stream_eq] at before
    exact agree i before
  · intro k f before fault
    obtain read | ⟨e, t, result⟩ := parse_at_fault before fault
    · exact .inl read
    · obtain ⟨i, token, seen, _⟩ := parse_settled result
      exact .inr ⟨e, t, i, result, token, le_of_seen seen fault⟩

end AresSyntax
