import Mathlib.Data.List.Induction
import AresSyntax.Proofs.Scan.Joining

/-!
The places that reading gives are those of the text.

* `Position.ofOffset`: the place at an offset, from the text alone;
* `Cursor.Reads`: a cursor stands at an offset, with the text behind it still to be read;
* `Outcome.places`: the locations that tokens and faults carry;
* `Cursor.given_increasing`: tokens stand one behind the other, with or without faults between.
-/
namespace AresSyntax

/-- The offset just behind the last line end of a text, or 0 if there is none. -/
def lineStart (cs : List Char) : Nat :=
  match cs.reverse.idxOf? '\n' with
  | some i => cs.length - i
  | none => 0

/-- The place at an offset of a text: lines are counted by the line ends before it, and columns from
the last of these on. -/
def Position.ofOffset (cs : List Char) (offset : Nat) : Position where
  line := 1 + (cs.take offset).count '\n'
  column := offset - lineStart (cs.take offset) + 1
  offset := offset

/-- Holds for the locations in the text of a file. -/
def Location.IsIn (text file : String) (l : Location) : Prop :=
  ∃ offset ≤ text.length, l = ⟨.ofOffset text.toList offset, file⟩

theorem lineStart_append (cs : List Char) (c : Char) :
    lineStart (cs ++ [c]) = if c = '\n' then cs.length + 1 else lineStart cs := by
  simp only [lineStart, List.reverse_append, List.reverse_singleton, List.singleton_append,
    List.idxOf?_cons, List.length_append, List.length_singleton]
  by_cases line : c = '\n'
  · simp [line]
  · simp only [beq_iff_eq, line, if_false]
    cases cs.reverse.idxOf? '\n' with
    | none => rfl
    | some i => simp

/-- Counting character by character gives the place at an offset. -/
theorem Position.past_start (cs : List Char) :
    Position.start.past cs = .ofOffset cs cs.length := by
  induction cs using List.reverseRecOn with
  | nil => rfl
  | append_singleton cs c ih =>
    rw [past_append, ih, past_cons, past_nil, ofOffset, ofOffset, List.take_length,
      List.take_length, after, lineStart_append, List.length_append, List.length_singleton,
      List.count_append]
    by_cases line : c = '\n'
    · subst line
      simp [Int.add_assoc]
    · simp [line]
      omega

theorem Position.past_take {cs : List Char} {n : Nat} (inside : n ≤ cs.length) :
    Position.start.past (cs.take n) = .ofOffset cs n := by
  rw [past_start, ofOffset, ofOffset, List.length_take, Nat.min_eq_left inside, List.take_take,
    Nat.min_self]

/-- Holds for a cursor that stands at an offset of the text of a file, before what is left of it. -/
def Cursor.Reads (text file : String) (c : Cursor) : Prop :=
  ∃ offset ≤ text.length, c = ⟨file, .ofOffset text.toList offset, text.toList.drop offset⟩

namespace Cursor

variable {text file : String} {c : Cursor}

theorem ofText_skip {n : Nat} (inside : n ≤ text.length) : (ofText file text).skip n =
    ⟨file, .ofOffset text.toList n, text.toList.drop n⟩ := by
  have room : n ≤ text.toList.length := by rwa [String.length_toList]
  simp only [ofText, skip, Position.past_take room]

theorem ofText_reads (text file : String) : (ofText file text).Reads text file :=
  ⟨0, Nat.zero_le _, ofText_skip (Nat.zero_le _)⟩

theorem Reads.location (h : c.Reads text file) : c.location.IsIn text file := by
  obtain ⟨offset, inside, rfl⟩ := h
  exact ⟨offset, inside, rfl⟩

/-- Behind the end of a text there is nothing to skip. -/
theorem Reads.skip (h : c.Reads text file) (n : Nat) : (c.skip n).Reads text file := by
  obtain ⟨offset, inside, rfl⟩ := h
  have length : text.toList.length = text.length := String.length_toList
  rw [← ofText_skip inside, skip_skip]
  by_cases room : offset + n ≤ text.length
  · exact ⟨offset + n, room, ofText_skip room⟩
  · refine ⟨text.length, Nat.le_refl _, ?_⟩
    rw [← ofText_skip (Nat.le_refl _)]
    have all : ∀ k, text.length ≤ k → (ofText file text).skip k =
        ⟨file, Position.start.past text.toList, []⟩ := by
      intro k le
      simp only [Cursor.skip, ofText, List.take_of_length_le (length ▸ le),
        List.drop_eq_nil_of_le (length ▸ le)]
    rw [all _ (by omega), all _ (Nat.le_refl _)]

end Cursor

/-- The locations that a fault carries. -/
def ReadFault.places : ReadFault → List Location
  | lexical _ location => [location]
  | tooManyDigits _ => []

/-- The locations that an outcome carries. -/
def Outcome.places : Outcome → List Location
  | .ok t => [t.location]
  | .error f => f.places

/-- The token of an outcome, unless it is the end token. -/
def Outcome.present? : Outcome → Option Token
  | .ok t => if t.kind = .endOfText then none else some t
  | .error _ => none

/-- The tokens among some outcomes, without the end token. -/
def presentTokens (os : List Outcome) : List Token := os.filterMap Outcome.present?

namespace Cursor

variable {text file : String} {c : Cursor}

/-- Whatever reading gives stands in the text, and the cursor behind it does. -/
theorem Reads.read (h : c.Reads text file) :
    (∀ l ∈ Outcome.places c.read.1, l.IsIn text file) ∧ c.read.2.Reads text file := by
  cases open_ : (Trivia.read c.rest).unclosed with
  | some opened =>
    simp only [Cursor.read, open_]
    refine ⟨fun l hl => ?_, h.skip _⟩
    obtain rfl := List.mem_singleton.1 hl
    exact (h.skip opened).location
  | none =>
    rw [read_of_closed open_ rfl]
    have start := h.skip (Trivia.read c.rest).length
    refine ⟨fun l hl => ?_, start.skip _⟩
    unfold outcome at hl
    split at hl
    · obtain rfl := List.mem_singleton.1 hl
      exact start.location
    · obtain rfl := List.mem_singleton.1 hl
      exact (start.skip _).location
    · cases hl

theorem Reads.behind (h : c.Reads text file) (n : Nat) : (c.behind n).Reads text file := by
  induction n generalizing c with
  | zero => exact h
  | succ n ih => exact ih h.read.2

/-- Reading several tokens is reading one token after the other. -/
theorem exists_take_behind (n : Nat) (c : Cursor) : ∃ k, (c.take n).2 = c.behind k := by
  induction n generalizing c with
  | zero => exact ⟨0, rfl⟩
  | succ n ih =>
    rw [take]
    cases read : c.read with
    | mk o c' =>
      have next : c' = c.behind 1 := by rw [behind_succ, read]; rfl
      cases o with
      | error f => exact ⟨1, next⟩
      | ok t =>
        obtain ⟨k, more⟩ := ih c'
        by_cases last : t.kind = .endOfText
        · exact ⟨1, by simpa [last] using next⟩
        · refine ⟨k + 1, ?_⟩
          rw [behind_succ, read, ← more]
          simp only [last, if_false]
          cases taken : c'.take n with
          | mk o c'' => cases o <;> rfl

/-- The tokens that are taken, or the fault at which taking them ends, stand in the text. -/
theorem Reads.take (h : c.Reads text file) (n : Nat) :
    (∀ ts, (c.take n).1 = .ok ts → ∀ t ∈ ts, t.location.IsIn text file) ∧
      ∀ f, (c.take n).1 = .error f → ∀ l ∈ f.places, l.IsIn text file := by
  induction n generalizing c with
  | zero =>
    constructor
    · intro ts none
      cases none
      simp
    · intro f fault
      cases fault
  | succ n ih =>
    obtain ⟨first, later⟩ := h.read
    rw [Cursor.take]
    cases read : c.read with
    | mk o c' =>
      rw [read] at first later
      cases o with
      | error f =>
        constructor
        · intro ts same
          cases same
        · intro g same
          cases same
          exact first
      | ok t =>
        have place : t.location.IsIn text file := first _ (List.mem_singleton.2 rfl)
        obtain ⟨tokens, fault⟩ := ih later
        by_cases last : t.kind = .endOfText
        · simp [last, place]
        · cases taken : c'.take n with
          | mk o c'' =>
            rw [taken] at tokens fault
            cases o with
            | error f =>
              simp only [last, if_false, taken]
              constructor
              · intro ts same
                cases same
              · intro g same
                exact Except.error.inj same ▸ fault f rfl
            | ok ts =>
              simp only [last, if_false, taken]
              refine ⟨fun us same => ?_, fun g same => by cases same⟩
              obtain rfl := Except.ok.inj same
              exact List.forall_mem_cons.2 ⟨place, tokens ts rfl⟩

/-- The next `n` outcomes. -/
def given (c : Cursor) : Nat → List Outcome
  | 0 => []
  | n + 1 => c.read.1 :: c.read.2.given n

theorem given_add (c : Cursor) (n m : Nat) :
    c.given (n + m) = c.given n ++ (c.behind n).given m := by
  induction n generalizing c with
  | zero => rw [Nat.zero_add]; rfl
  | succ n ih => rw [Nat.add_right_comm, given, ih, given, behind_succ, List.cons_append]

theorem offset_le_skip (c : Cursor) (n : Nat) :
    c.position.offset ≤ (c.skip n).position.offset := by
  simp only [skip, Position.offset_past]
  omega

/-- Reading never goes back. -/
theorem offset_le_read (c : Cursor) : c.position.offset ≤ c.read.2.position.offset := by
  unfold read
  simp only
  split
  · exact c.offset_le_skip _
  · exact Int.le_trans (c.offset_le_skip _) (offset_le_skip _ _)

/-- A token stands where reading started or behind, and reading goes on behind it. -/
theorem offset_of_present {t : Token} (h : Outcome.present? c.read.1 = some t) :
    c.position.offset ≤ t.location.offset ∧ t.location.offset < c.read.2.position.offset := by
  cases read : c.read with
  | mk o c' =>
    rw [read] at h
    cases o with
    | error f => cases h
    | ok u =>
      obtain ⟨other, rfl⟩ : u.kind ≠ .endOfText ∧ u = t := by simpa [Outcome.present?] using h
      obtain ⟨ss, slice, rest, _, cut, _, spells, place, rfl, _⟩ := read_spec read
      have stands : u.location.offset = (c.skip (Segment.text ss).length).position.offset := by
        rw [place]
        rfl
      have some : 0 < slice.length :=
        List.length_pos_iff.2 fun none => other (spells.ending.1 none)
      have left : (c.skip (Segment.text ss).length).rest = slice ++ rest := by simp [cut]
      rw [stands]
      refine ⟨c.offset_le_skip _, ?_⟩
      rw [offset_skip left]
      omega

theorem offset_le_given (c : Cursor) (n : Nat) :
    ∀ t ∈ presentTokens (c.given n), c.position.offset ≤ t.location.offset := by
  induction n generalizing c with
  | zero => exact fun t none => (List.not_mem_nil none).elim
  | succ n ih =>
    intro t ht
    obtain ⟨o, given, present⟩ := List.mem_filterMap.1 ht
    obtain rfl | later := List.mem_cons.1 given
    · exact (offset_of_present present).1
    · exact Int.le_trans c.offset_le_read (ih _ t (List.mem_filterMap.2 ⟨o, later, present⟩))

/-- Each token stands before all tokens that are read after it, whatever faults are between. -/
theorem given_increasing (c : Cursor) (n : Nat) : (presentTokens (c.given n)).Pairwise
    fun t u => t.location.offset < u.location.offset := by
  induction n generalizing c with
  | zero => exact .nil
  | succ n ih =>
    rw [given, presentTokens, List.filterMap_cons]
    cases present : Outcome.present? c.read.1 with
    | none => exact ih _
    | some t =>
      refine List.pairwise_cons.2 ⟨fun u hu => ?_, ih _⟩
      exact Int.lt_of_lt_of_le (offset_of_present present).2 (offset_le_given _ n u hu)

end Cursor
end AresSyntax
