import AresSyntax.Proofs.Scan.Listing

/-!
The outcomes of a text, one after the other, and the stream that holds them.

* `TokenStream.nth`: the outcome at an index of a stream;
* `Cursor.read_ending`: what the end of a text and a character that starts no token give is given
  for ever;
* `Cursor.nth_stream`: a stream holds what its cursor reads;
* `outcomes`: the outcomes of a text;
* `tokenize_lists`: the tokens of a text are its outcomes up to the end token;
* `tokenize_eq_error`: the tokens of a text are refused with its first fault.
-/
namespace AresSyntax

namespace Trivia

/-- A comment that is left open takes all of the text. -/
theorem readFrom_unclosed {mode : Mode} {n m opened : Nat} {cs : List Char}
    (h : readFrom mode n cs = ⟨m, some opened⟩) : m = n + cs.length := by
  fun_induction readFrom mode n cs <;> grind

/-- Trivia ends before a character that starts none. -/
theorem readFrom_stop {c : Char} {n : Nat} {cs : List Char} (noBlank : isBlank c = false)
    (noSign : c ≠ '#') (noMark : ∀ cs', c = '=' → cs = '=' :: '=' :: cs' → False) :
    readFrom .between n (c :: cs) = ⟨n, none⟩ := by
  rw [readFrom]
  · simp only [noBlank, noSign, Bool.false_eq_true, if_false]
  · exact noMark

theorem read_digit {c : Char} (digit : c.isDigit) (cs : List Char) :
    read (c :: cs) = ⟨0, none⟩ := by
  have noBlank : isBlank c = false := by
    rw [← Bool.not_eq_true]
    intro blank
    simp only [isBlank, Bool.or_eq_true, beq_iff_eq] at blank
    obtain (rfl | rfl) | rfl := blank <;> exact absurd digit (by decide)
  refine readFrom_stop noBlank ?_ ?_
  · rintro rfl
    exact absurd digit (by decide)
  · rintro cs' rfl
    exact absurd digit (by decide)

/-- What is left behind `k` characters and some more is what is left behind all of these. -/
theorem drop_of_drop {n m k : Nat} {cs cs' : List Char} (le : n + k ≤ m) (cut : cs'.drop k = cs) :
    cs.drop (m - (n + k)) = cs'.drop (m - n) := by
  rw [← cut, List.drop_drop]
  congr 1
  omega

/-- Behind trivia there is no more of it. Where reading goes on, what is left in the end is the
same; it stops before a line end or before a character that starts no trivia. -/
theorem readFrom_behind {mode : Mode} {n m : Nat} {cs : List Char}
    (h : readFrom mode n cs = ⟨m, none⟩) : n ≤ m ∧ read (cs.drop (m - n)) = ⟨0, none⟩ := by
  fun_induction readFrom mode n cs
  case case1 | case2 =>
    cases h
    simp [read, readFrom]
  case case3 => cases h
  case case4 ih | case5 ih | case6 ih =>
    obtain ⟨le, behind⟩ := ih h
    exact ⟨by omega, drop_of_drop le (k := 3) rfl ▸ behind⟩
  case case7 ih | case8 ih | case11 ih | case12 ih =>
    obtain ⟨le, behind⟩ := ih h
    exact ⟨by omega, drop_of_drop le (k := 1) rfl ▸ behind⟩
  case case9 n c cs noMark blank line =>
    cases h
    refine ⟨Nat.le_refl _, ?_⟩
    rw [Nat.sub_self, List.drop_zero]
    exact readFrom_stop (Bool.eq_false_iff.2 blank) line noMark
  case case10 n cs noMark =>
    cases h
    refine ⟨Nat.le_refl _, ?_⟩
    rw [Nat.sub_self, List.drop_zero]
    rfl

/-- Behind the trivia at the start of a text there is no more of it. -/
theorem read_behind {cs : List Char} (h : (read cs).unclosed = none) :
    read (cs.drop (read cs).length) = ⟨0, none⟩ := by
  have whole : readFrom .between 0 cs = ⟨(read cs).length, none⟩ := by
    rw [← h]
    rfl
  exact (readFrom_behind whole).2

end Trivia

namespace Lexeme

/-- Holds for readings that know their first character. -/
def Reading.Known (r : Reading) : Prop := ∀ c k, r.result ≠ .error (.error (.unrecognized c) k)

/-- What is read of a number: a literal, or one of the flaws that numbers can have. -/
structure Reading.IsNumber (r : Reading) : Prop where
  literal : ∀ l, r.result = .ok l → ∃ k, l.kind = .literal k
  flaw : ∀ f, r.result = .error f → f = .error .numberTooLarge 0 ∨ f = .error .malformedHex 0 ∨
    ∃ count, f = .tooManyDigits count

theorem Reading.IsNumber.known {r : Reading} (h : r.IsNumber) : r.Known := by
  intro c k unknown
  obtain same | same | ⟨count, same⟩ := h.flaw _ unknown <;> cases same

theorem integer_isNumber (text : List Char) (value : Nat) : (integer text value).IsNumber := by
  unfold integer
  split
  · refine ⟨fun l h => ?_, nofun⟩
    cases h
    exact ⟨.integer, rfl⟩
  · refine ⟨nofun, fun f h => ?_⟩
    cases h
    exact .inl rfl

theorem decimal_isNumber (digits : List Char) : (decimal digits).IsNumber := by
  unfold decimal
  split
  · refine ⟨nofun, fun f h => ?_⟩
    cases h
    exact .inr (.inr ⟨_, rfl⟩)
  · exact integer_isNumber _ _

theorem number_isNumber (cs : List Char) : (number cs).IsNumber := by
  unfold number
  simp only
  split
  · split
    · exact decimal_isNumber _
    · refine ⟨fun l h => ?_, nofun⟩
      cases h
      exact ⟨.float, rfl⟩
  · exact decimal_isNumber _

theorem hexadecimal_isNumber (cs : List Char) : (hexadecimal cs).IsNumber := by
  unfold hexadecimal
  simp only
  split
  · refine ⟨nofun, fun f h => ?_⟩
    cases h
    exact .inr (.inl rfl)
  · exact integer_isNumber _ _

theorem quotationFrom_known (q : Char) (n : Nat) (contents cs : List Char) :
    (quotationFrom q n contents cs).Known := by
  intro c k
  fun_induction quotationFrom q n contents cs
  all_goals first | assumption | simp [Reading.fail, string]

/-- A character that starts no lexeme is not used up. -/
theorem known_or_unrecognized (c : Char) (cs : List Char) :
    (read (c :: cs)).Known ∨ read (c :: cs) = .fail (.unrecognized c) 0 0 := by
  have given (n : Nat) (l : Lexeme) : Reading.Known ⟨n, .ok l⟩ := by
    intro c k same
    cases same
  rw [read]
  split
  · exact .inl (given _ _)
  split
  · exact .inl (given _ _)
  split
  · exact .inl (hexadecimal_isNumber _).known
  split
  · exact .inl (number_isNumber _).known
  split
  · exact .inl (quotationFrom_known _ _ _ _)
  split
  · exact .inl (given _ _)
  · exact .inr rfl

theorem read_unrecognized {cs : List Char} {c : Char} {k : Nat}
    (h : (read cs).result = .error (.error (.unrecognized c) k)) :
    read cs = .fail (.unrecognized c) 0 0 := by
  cases cs with
  | nil => cases h
  | cons d cs =>
    obtain known | unknown := known_or_unrecognized d cs
    · exact absurd h (known c k)
    · rw [unknown] at h ⊢
      cases h
      rfl

end Lexeme

namespace TokenStream

/-- The outcome at an index. -/
def nth (s : TokenStream) (i : Nat) : Outcome := (s.pending[i]?).getD s.ending.outcome

/-- The stream behind the next `n` outcomes. -/
def drop (n : Nat) (s : TokenStream) : TokenStream := { s with pending := s.pending.drop n }

@[simp] theorem nth_drop (s : TokenStream) (n i : Nat) : (s.drop n).nth i = s.nth (n + i) := by
  simp [nth, drop]

@[simp] theorem drop_drop (s : TokenStream) (n m : Nat) : (s.drop n).drop m = s.drop (n + m) := by
  simp [drop]

@[simp] theorem drop_zero (s : TokenStream) : s.drop 0 = s := rfl

theorem next_eq (s : TokenStream) : s.next = (s.nth 0, s.drop 1) := by
  obtain ⟨pending, ending⟩ := s
  cases pending <;> rfl

@[simp] theorem nth_push_zero (o : Outcome) (s : TokenStream) : (s.push o).nth 0 = o := rfl

@[simp] theorem nth_push_succ (o : Outcome) (s : TokenStream) (i : Nat) :
    (s.push o).nth (i + 1) = s.nth i := rfl

end TokenStream

namespace Cursor

theorem behind_succ (c : Cursor) (i : Nat) : c.behind (i + 1) = c.read.2.behind i := rfl

/-- A cursor that stays where it is when it reads does so for ever. -/
theorem behind_of_stays {c : Cursor} (h : c.read.2 = c) (i : Nat) : c.behind i = c := by
  induction i with
  | zero => rfl
  | succ i ih => rw [behind_succ, h, ih]

/-- Reading takes the trivia and the lexeme behind it. -/
theorem read_of_closed {c start : Cursor} (h : (Trivia.read c.rest).unclosed = none)
    (same : c.skip (Trivia.read c.rest).length = start) :
    c.read = (start.outcome (Lexeme.read start.rest),
      start.skip (Lexeme.read start.rest).length) := by
  rw [read, same]
  simp only [h]

/-- A character that starts no token is left where it stands, with no trivia before it. -/
theorem left_of_unrecognized {c c' : Cursor} {ch : Char} {location : Location}
    (h : c.read = (.error (.lexical (.unrecognized ch) location), c')) :
    location = c'.location ∧ Trivia.read c'.rest = ⟨0, none⟩ ∧
      Lexeme.read c'.rest = .fail (.unrecognized ch) 0 0 := by
  cases open_ : (Trivia.read c.rest).unclosed with
  | some opened =>
    rw [read] at h
    simp [open_] at h
  | none =>
    obtain ⟨start, same⟩ : ∃ start, c.skip (Trivia.read c.rest).length = start := ⟨_, rfl⟩
    have left : start.rest = c.rest.drop (Trivia.read c.rest).length := by rw [← same]; rfl
    have trivia := Trivia.read_behind open_
    rw [← left] at trivia
    rw [read_of_closed open_ same] at h
    obtain ⟨fault, rfl⟩ := Prod.mk.inj h
    cases result : (Lexeme.read start.rest).result with
    | ok l =>
      rw [outcome, result] at fault
      cases fault
    | error flaw =>
      rw [outcome, result] at fault
      cases flaw with
      | tooManyDigits count => cases fault
      | error e k =>
        cases fault
        have unknown := Lexeme.read_unrecognized result
        rw [unknown] at result
        cases result
        have stays : start.skip (Lexeme.read start.rest).length = start := by rw [unknown]; rfl
        rw [stays]
        exact ⟨rfl, trivia, unknown⟩

/-- A character that starts no token is read again and again. -/
theorem read_unrecognized {c c' : Cursor} {ch : Char} {location : Location}
    (h : c.read = (.error (.lexical (.unrecognized ch) location), c')) :
    c'.read = (.error (.lexical (.unrecognized ch) location), c') := by
  obtain ⟨rfl, trivia, unknown⟩ := left_of_unrecognized h
  have again : c'.read = (c'.outcome (Lexeme.read c'.rest),
      c'.skip (Lexeme.read c'.rest).length) :=
    read_of_closed (by rw [trivia]) (by rw [trivia]; rfl)
  rw [again, unknown]
  rfl

/-- The end of a text and a character that starts no token are read again and again. -/
theorem read_ending {c : Cursor} {e : Ending} (h : ending? c.read.1 = some e) :
    c.read.1 = e.outcome ∧ c.read.2.read = (e.outcome, c.read.2) := by
  cases read : c.read with
  | mk o c' =>
    rw [read] at h
    cases o with
    | ok t =>
      obtain ⟨ss, slice, rest, _, cut, _, spells, location, rfl, ends⟩ := read_spec read
      by_cases last : t.kind = .endOfText
      · obtain rfl : .endOfText t.location = e := by simpa [ending?, last] using h
        obtain ⟨none, same⟩ := ends last
        obtain ⟨rfl, rfl⟩ := List.append_eq_nil_iff.1 none
        have left : (c.skip (Segment.text ss).length).rest = [] := by simp [cut]
        refine ⟨congrArg Except.ok same, ?_⟩
        simp only [List.length_nil, skip_zero]
        rw [read_of_rest_nil left, location]
        rfl
      · simp [ending?, last] at h
    | error f =>
      unfold ending? at h
      split at h
      · rename_i same
        cases same
      · rename_i same
        cases same
        cases h
        exact ⟨rfl, read_unrecognized read⟩
      · cases h

/-- What is no ending takes a character. -/
theorem length_rest_lt {c : Cursor} (h : ending? c.read.1 = none) :
    c.read.2.rest.length < c.rest.length := by
  cases read : c.read with
  | mk o c' =>
    rw [read] at h
    cases o with
    | ok t => exact length_rest_of_read read fun last => by simp [ending?, last] at h
    | error f =>
      have some : 0 < c.rest.length := by
        refine List.length_pos_iff.2 fun none => ?_
        rw [read_of_rest_nil none] at read
        cases read
      cases open_ : (Trivia.read c.rest).unclosed with
      | some opened =>
        have all : (Trivia.read c.rest).length = c.rest.length := by
          have whole : Trivia.readFrom .between 0 c.rest =
            ⟨(Trivia.read c.rest).length, Option.some opened⟩ := by rw [← open_]; rfl
          simpa using Trivia.readFrom_unclosed whole
        rw [Cursor.read] at read
        simp only [open_, Prod.mk.injEq] at read
        rw [← read.2, rest_skip, all, List.drop_length]
        exact some
      | none =>
        rw [read_of_closed open_ rfl] at read
        obtain ⟨fault, rfl⟩ := Prod.mk.inj read
        generalize same : c.skip (Trivia.read c.rest).length = start at fault
        have less : start.rest.length ≤ c.rest.length := by
          rw [← same, rest_skip, List.length_drop]
          exact Nat.sub_le _ _
        cases left : start.rest with
        | nil =>
          rw [left] at fault
          cases fault
        | cons ch cs =>
          obtain progress | unknown := Lexeme.read_progress ch cs
          · rw [rest_skip, List.length_drop, left]
            simp only [left, List.length_cons] at less ⊢
            omega
          · rw [outcome, left, unknown] at fault
            cases fault
            simp [ending?] at h

/-- The stream of a cursor holds what the cursor reads, one outcome after the other. -/
theorem nth_streamWithin {n : Nat} {c : Cursor} (room : c.rest.length ≤ n) (i : Nat) :
    (c.streamWithin n).nth i = (c.behind i).read.1 := by
  induction n generalizing c i with
  | zero =>
    have last := read_of_rest_nil (List.length_eq_zero_iff.1 (Nat.le_zero.1 room))
    rw [behind_of_stays (by rw [last]), last]
    rfl
  | succ n ih =>
    cases shows : ending? c.read.1 with
    | some e =>
      obtain ⟨first, again⟩ := read_ending shows
      have only : c.streamWithin (n + 1) = ⟨[], e⟩ := by simp only [streamWithin, shows]
      rw [only]
      cases i with
      | zero => exact first.symm
      | succ i =>
        rw [behind_succ, behind_of_stays (by rw [again]), again]
        rfl
    | none =>
      have less := length_rest_lt shows
      have first : c.streamWithin (n + 1) = (c.read.2.streamWithin n).push c.read.1 := by
        simp only [streamWithin, shows]
      rw [first]
      cases i with
      | zero => rfl
      | succ i => exact ih (by omega) i

theorem nth_stream (c : Cursor) (i : Nat) : c.stream.nth i = (c.behind i).read.1 :=
  nth_streamWithin (Nat.le_refl _) i

/-- The tokens that a cursor reads before the end token, and that one. -/
structure Lists (c : Cursor) (ts : List Token) (e : Token) : Prop where
  others : ∀ t ∈ ts, t.kind ≠ .endOfText
  last : e.kind = .endOfText
  reads : ∀ i t, (ts ++ [e])[i]? = some t → (c.behind i).read.1 = .ok t

theorem lists_nil {c : Cursor} {e : Token} :
    c.Lists [] e ↔ e.kind = .endOfText ∧ c.read.1 = .ok e := by
  constructor
  · intro h
    exact ⟨h.last, h.reads 0 e rfl⟩
  · rintro ⟨last, read⟩
    refine ⟨by simp, last, ?_⟩
    intro i t ht
    cases i with
    | zero =>
      cases ht
      exact read
    | succ i => cases ht

theorem lists_cons {c : Cursor} {t e : Token} {ts : List Token} : c.Lists (t :: ts) e ↔
    t.kind ≠ .endOfText ∧ c.read.1 = .ok t ∧ c.read.2.Lists ts e := by
  constructor
  · intro h
    obtain ⟨other, others⟩ := List.forall_mem_cons.1 h.others
    exact ⟨other, h.reads 0 t rfl, others, h.last, fun i u hu => h.reads (i + 1) u hu⟩
  · rintro ⟨other, read, later⟩
    refine ⟨List.forall_mem_cons.2 ⟨other, later.others⟩, later.last, ?_⟩
    intro i u hu
    cases i with
    | zero =>
      cases hu
      exact read
    | succ i => exact later.reads i u hu

/-- Behind the tokens that a cursor lists the end token is read for ever. -/
theorem Lists.reads_end {c : Cursor} {ts : List Token} {e : Token} (h : c.Lists ts e) {i : Nat}
    (behind : ts.length ≤ i) : (c.behind i).read.1 = .ok e := by
  induction ts generalizing c i with
  | nil =>
    obtain ⟨last, read⟩ := lists_nil.1 h
    have shows : ending? c.read.1 = some (.endOfText e.location) := by
      simp [read, ending?, last]
    obtain ⟨first, again⟩ := read_ending shows
    rw [read] at first
    cases i with
    | zero => exact read
    | succ i => rw [behind_succ, behind_of_stays (by rw [again]), again, first]
  | cons t ts ih =>
    obtain ⟨-, -, later⟩ := lists_cons.1 h
    cases i with
    | zero => exact absurd behind (Nat.not_succ_le_zero _)
    | succ i => exact ih later (Nat.le_of_succ_le_succ behind)

/-- Taking tokens gives those up to the end token. -/
theorem take_eq_ok_iff_lists {n : Nat} {c : Cursor} {us : List Token} (room : c.rest.length < n) :
    (c.take n).1 = .ok us ↔ ∃ ts e, us = ts ++ [e] ∧ c.Lists ts e := by
  induction n generalizing c us with
  | zero => exact absurd room (Nat.not_lt_zero _)
  | succ n ih =>
    rw [take_eq_ok]
    constructor
    · rintro ⟨t, c', read, ⟨last, rfl⟩ | ⟨other, us, taken, rfl⟩⟩
      · exact ⟨[], t, rfl, lists_nil.2 ⟨last, by rw [read]⟩⟩
      · have less := length_rest_of_read read other
        obtain ⟨ts, e, rfl, later⟩ := (ih (by omega)).1 taken
        exact ⟨t :: ts, e, rfl, lists_cons.2 ⟨other, by rw [read], by rw [read]; exact later⟩⟩
    · rintro ⟨ts, e, rfl, lists⟩
      cases ts with
      | nil =>
        obtain ⟨last, read⟩ := lists_nil.1 lists
        exact ⟨e, _, Prod.ext read rfl, .inl ⟨last, rfl⟩⟩
      | cons t ts =>
        obtain ⟨other, read, later⟩ := lists_cons.1 lists
        have step : c.read = (.ok t, c.read.2) := Prod.ext read rfl
        have less := length_rest_of_read step other
        have taken := (ih (by omega)).2 ⟨ts, e, rfl, later⟩
        exact ⟨t, _, step, .inr ⟨other, _, taken, rfl⟩⟩

/-- The first fault of a cursor, and the tokens before it. -/
def FirstFault (c : Cursor) (k : Nat) (f : ReadFault) : Prop :=
  (∀ j < k, ∃ t, (c.behind j).read.1 = .ok t) ∧ (c.behind k).read.1 = .error f

theorem firstFault_zero {c : Cursor} {f : ReadFault} :
    c.FirstFault 0 f ↔ c.read.1 = .error f := by
  simp [FirstFault, behind]

theorem firstFault_succ {c : Cursor} {k : Nat} {f : ReadFault} :
    c.FirstFault (k + 1) f ↔ (∃ t, c.read.1 = .ok t) ∧ c.read.2.FirstFault k f := by
  simp only [FirstFault, Nat.forall_lt_succ_left, behind]
  exact and_assoc

/-- Taking tokens fails with the first fault. -/
theorem take_eq_error {n : Nat} {c : Cursor} {f : ReadFault} (room : c.rest.length < n) :
    (c.take n).1 = .error f ↔ ∃ k, c.FirstFault k f := by
  induction n generalizing c with
  | zero => exact absurd room (Nat.not_lt_zero _)
  | succ n ih =>
    have cases_index : (∃ k, c.FirstFault k f) ↔
        c.read.1 = .error f ∨ (∃ t, c.read.1 = .ok t) ∧ ∃ k, c.read.2.FirstFault k f := by
      constructor
      · rintro ⟨k | k, first⟩
        · exact .inl (firstFault_zero.1 first)
        · obtain ⟨token, later⟩ := firstFault_succ.1 first
          exact .inr ⟨token, k, later⟩
      · rintro (first | ⟨token, k, later⟩)
        · exact ⟨0, firstFault_zero.2 first⟩
        · exact ⟨k + 1, firstFault_succ.2 ⟨token, later⟩⟩
    rw [cases_index, take]
    cases read : c.read with
    | mk o c' =>
      cases o with
      | error g => simp
      | ok t =>
        by_cases last : t.kind = .endOfText
        · have shows : ending? c.read.1 = some (.endOfText t.location) := by
            simp [read, ending?, last]
          have again := (read_ending shows).2
          rw [read] at again
          have stays : ∀ k, ¬ c'.FirstFault k f := by
            intro k first
            have fault := first.2
            rw [behind_of_stays (by rw [again]), again] at fault
            cases fault
          simp [last, stays]
        · have less := length_rest_of_read read last
          have more := ih (c := c') (by omega)
          simp only [last, if_false, reduceCtorEq, Except.ok.injEq, exists_eq', true_and, false_or]
          rw [← more]
          cases taken : c'.take n with
          | mk o c'' => cases o <;> simp

end Cursor

/-- The outcomes of a text, one for each time that a token is asked for. -/
def outcomes (text file : String) (i : Nat) : Outcome :=
  ((Cursor.ofText file text).behind i).read.1

theorem nth_stream_eq (text file : String) :
    (Cursor.ofText file text).stream.nth = outcomes text file :=
  funext (Cursor.ofText file text).nth_stream

/-- The tokens of a text are its outcomes up to the end token. -/
theorem tokenize_lists {text file : String} {us : List Token} : tokenize text file = .ok us ↔
    ∃ ts e, us = ts ++ [e] ∧ (Cursor.ofText file text).Lists ts e :=
  Cursor.take_eq_ok_iff_lists (Nat.lt_succ_self _)

/-- The tokens of a text are refused with the first fault of the text. -/
theorem tokenize_eq_error {text file : String} {f : ReadFault} :
    tokenize text file = .error f ↔ ∃ k, (Cursor.ofText file text).FirstFault k f :=
  Cursor.take_eq_error (Nat.lt_succ_self _)

end AresSyntax
