import AresSyntax.Proofs.Scan.Places

/-!
Reading makes progress wherever it has come to, also behind faults.

* `Cursor.Reads.offset_add_length`: what a cursor has behind it and before it is the whole text;
* `Cursor.Goes`: what the next outcome says of the cursors before and behind it;
* `Cursor.Reads.countP_given_le`: how many outcomes take a character;
* `Cursor.take_congr`: a bound on the tokens to take is of no matter if there is room for all;
* `reading_progresses`: every cursor that reading a text comes to goes on, or stays for ever.
-/
namespace AresSyntax

namespace Cursor

variable {text file : String} {c c' : Cursor}

/-- A character of a text is behind the cursor, or it is still to be read. -/
theorem Reads.offset_add_length (h : c.Reads text file) :
    c.position.offset + c.rest.length = text.length := by
  obtain ⟨offset, inside, rfl⟩ := h
  simp only [Position.ofOffset, List.length_drop, String.length_toList]
  omega

theorem Reads.offset_lt_read (h : c.Reads text file) (goes : ending? c.read.1 = none) :
    c.position.offset < c.read.2.position.offset := by
  have before := h.offset_add_length
  have behind := h.read.2.offset_add_length
  have less := length_rest_lt goes
  omega

/-- The end token leaves nothing to read. -/
theorem rest_of_endOfText {t : Token} (h : c.read = (.ok t, c')) (last : t.kind = .endOfText) :
    c'.rest = [] := by
  obtain ⟨ss, slice, rest, _, cut, _, _, _, rfl, ends⟩ := read_spec h
  obtain ⟨none, _⟩ := ends last
  obtain ⟨rfl, rfl⟩ := List.append_eq_nil_iff.1 none
  simp [cut]

/-- An outcome that shows the ending of a text is given for ever, and the cursor stays. -/
theorem read_behind_ending {e : Ending} (h : ending? c.read.1 = some e) (m : Nat) :
    (c.read.2.behind m).read = (c.read.1, c.read.2) := by
  obtain ⟨first, again⟩ := read_ending h
  have stays : c.read.2.read.2 = c.read.2 := by rw [again]
  rw [behind_of_stays stays, again, first]

/-- What the next outcome says of the cursors before and behind it, in a text of `length`
characters. A character that starts no token is the only fault at which the cursor stays. -/
structure Goes (length : Nat) (c : Cursor) : Prop where
  forward : c.position.offset ≤ c.read.2.position.offset
  inside : c.read.2.position.offset ≤ length
  token : ∀ t, c.read.1 = .ok t → t.kind ≠ .endOfText →
    c.position.offset ≤ t.location.offset ∧ t.location.offset < c.read.2.position.offset
  endOfText : ∀ t, c.read.1 = .ok t → t.kind = .endOfText →
    c.read.2.position.offset = length ∧ ∀ m, (c.read.2.behind m).read = (.ok t, c.read.2)
  unrecognized : ∀ ch l, c.read.1 = .error (.lexical (.unrecognized ch) l) →
    c.read.2.position.offset = l.offset ∧
      ∀ m, (c.read.2.behind m).read = (.error (.lexical (.unrecognized ch) l), c.read.2)
  fault : ∀ f, c.read.1 = .error f → (∀ ch l, f ≠ .lexical (.unrecognized ch) l) →
    c.position.offset < c.read.2.position.offset

theorem Reads.goes (h : c.Reads text file) : c.Goes text.length := by
  have whole := h.read.2.offset_add_length
  constructor
  case forward => exact c.offset_le_read
  case inside => omega
  case token =>
    intro t read other
    have present : Outcome.present? c.read.1 = some t := by simp [read, Outcome.present?, other]
    exact offset_of_present present
  case endOfText =>
    intro t read last
    have shows : ending? c.read.1 = some (.endOfText t.location) := by simp [read, ending?, last]
    have none : c.read.2.rest = [] := rest_of_endOfText (Prod.ext read rfl) last
    constructor
    · simpa [none] using whole
    · intro m
      rw [read_behind_ending shows, read]
  case unrecognized =>
    intro ch l read
    have shows : ending? c.read.1 = some (.fault (.lexical (.unrecognized ch) l)) := by
      rw [read, ending?]
    constructor
    · obtain ⟨rfl, -⟩ := left_of_unrecognized (Prod.ext read rfl)
      rfl
    · intro m
      rw [read_behind_ending shows, read]
  case fault =>
    intro f read other
    apply h.offset_lt_read
    rw [read]
    unfold ending?
    split
    · rename_i token
      cases token
    · rename_i ch l unknown
      exact absurd (Except.error.inj unknown) (other ch l)
    · rfl

/-- Each outcome that is no ending takes a character of those that are left. -/
theorem Reads.countP_given_le (h : c.Reads text file) (n : Nat) :
    c.position.offset + (c.given n).countP (fun o => (ending? o).isNone) ≤ text.length := by
  induction n generalizing c with
  | zero =>
    have whole := h.offset_add_length
    simp only [given, List.countP_nil]
    omega
  | succ n ih =>
    have later := ih h.read.2
    rw [given, List.countP_cons]
    cases shows : ending? c.read.1 with
    | none =>
      have less := h.offset_lt_read shows
      simp only [Option.isNone_none, if_true]
      omega
    | some e =>
      have le := c.offset_le_read
      simp only [Option.isNone_some, Bool.false_eq_true, if_false]
      omega

/-- If there is room for all that is left, then more of it changes nothing. -/
theorem take_congr {n m : Nat} (roomN : c.rest.length < n) (roomM : c.rest.length < m) :
    c.take n = c.take m := by
  induction n generalizing c m with
  | zero => exact absurd roomN (Nat.not_lt_zero _)
  | succ n ih =>
    cases m with
    | zero => exact absurd roomM (Nat.not_lt_zero _)
    | succ m =>
      rw [take, take]
      cases read : c.read with
      | mk o c' =>
        cases o with
        | error f => rfl
        | ok t =>
          by_cases last : t.kind = .endOfText
          · simp only [last, if_true]
          · have less := length_rest_of_read read last
            simp only [last, if_false, ih (c := c') (m := m) (by omega) (by omega)]

/-- However many tokens are asked for, there are no more than characters left and the end token. -/
theorem length_of_take {n : Nat} {ts : List Token} (h : (c.take n).1 = .ok ts) :
    ts.length ≤ c.rest.length + 1 := by
  induction n generalizing c ts with
  | zero =>
    cases h
    exact Nat.zero_le _
  | succ n ih =>
    obtain ⟨t, c', read, ⟨_, rfl⟩ | ⟨other, us, more, rfl⟩⟩ := take_eq_ok.1 h
    · exact Nat.le_add_left 1 _
    · have less := length_rest_of_read read other
      have later := ih more
      simp only [List.length_cons]
      omega

end Cursor

/-- Wherever reading a text has come to, over tokens and faults of any kind, it goes on: behind
every token other than the end token, and behind every fault other than a character that starts no
token. These two it gives again and again, from where it stands. So no more outcomes than the text
has characters are of another kind, and the tokens up to the end token are all found. -/
theorem reading_progresses (text file : String) (n : Nat) :
    ((Cursor.ofText file text).behind n).Goes text.length ∧
    (∀ m, (((Cursor.ofText file text).behind n).given m).countP (fun o => (ending? o).isNone) ≤
      text.length) ∧
    (∀ m, text.length < m → ((Cursor.ofText file text).behind n).take m =
      ((Cursor.ofText file text).behind n).readAll) ∧
    ∀ m ts, (((Cursor.ofText file text).behind n).take m).1 = .ok ts →
      ts.length ≤ text.length + 1 := by
  have reads := (Cursor.ofText_reads text file).behind n
  generalize (Cursor.ofText file text).behind n = c at reads
  have whole := reads.offset_add_length
  have start : 0 ≤ c.position.offset := by
    obtain ⟨offset, _, same⟩ := reads
    rw [same]
    exact Int.natCast_nonneg offset
  refine ⟨reads.goes, ?_, ?_, ?_⟩
  · intro m
    have few := reads.countP_given_le m
    omega
  · intro m room
    exact Cursor.take_congr (by omega) (Nat.lt_succ_self _)
  · intro m ts taken
    have few := Cursor.length_of_take taken
    omega

/-- Reading goes on in the middle of a string and behind a number, and stays before a character. -/
theorem reading_progresses_faults :
    ((Cursor.ofText "f.ares" "'\\q 0x@").given 4).map (fun o => (ending? o).isNone) =
      [true, true, true, false] ∧
    ((Cursor.ofText "f.ares" "'\\q 0x@").behind 3).read.2.position.offset = 6 ∧
    ∀ m, (((Cursor.ofText "f.ares" "'\\q 0x@").behind 3).read.2.behind m).read.1 =
      .error (.lexical (.unrecognized '@') ⟨⟨1, 7, 6⟩, "f.ares"⟩) := by
  have goesOn : ((Cursor.ofText "f.ares" "'\\q 0x@").given 4).map (fun o =>
      (ending? o).isNone) = [true, true, true, false] := by decide +kernel
  have fault : ((Cursor.ofText "f.ares" "'\\q 0x@").behind 3).read.1 =
      .error (.lexical (.unrecognized '@') ⟨⟨1, 7, 6⟩, "f.ares"⟩) := by decide +kernel
  obtain ⟨goes, -⟩ := reading_progresses "'\\q 0x@" "f.ares" 3
  obtain ⟨stands, again⟩ := goes.unrecognized _ _ fault
  refine ⟨goesOn, stands, ?_⟩
  intro m
  exact congrArg Prod.fst (again m)

end AresSyntax
