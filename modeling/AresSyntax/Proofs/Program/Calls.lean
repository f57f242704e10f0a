import Mathlib.Logic.Relation
import AresSyntax.Proofs.Reader.Restoring
import AresSyntax.Proofs.Scan.Places
import AresSyntax.Proofs.Script.Standing
import AresSyntax.Proofs.Soundness.Statements

/-!
One parser that is called again and again, whatever came of the calls before.

* `Reader.Sees`: the outcomes that a reader can get to see;
* `Reader.Call`, `Reader.Calls`: a call of a parser, and any number of them;
* `Reader.Serves`: the parsers on a text, after any calls;
* `calls_restore`: what calls leave of the levels and subroutines, and where they end.
-/
namespace AresSyntax
namespace Reader

variable {r r' s : Reader} {P : Outcome → Prop}

/-- The reader sees only outcomes for which `P` holds, now and further on. -/
structure Sees (P : Outcome → Prop) (r : Reader) : Prop where
  current : P (.ok r.current)
  next : P (.ok r.next)
  ahead : ∀ i, P (r.stream.nth i)

theorem Sees.shift (h : r.Sees P) : r.shift.Sees P where
  current := h.next
  next := by
    have first := h.ahead 0
    unfold Reader.shift
    rw [TokenStream.next_eq]
    cases shown : r.stream.nth 0 with
    | ok t => exact shown ▸ first
    | error f => exact h.next
  ahead i := by
    unfold Reader.shift
    rw [TokenStream.next_eq, TokenStream.nth_drop]
    exact h.ahead _

theorem Onward.sees (h : r.Onward r') (hr : r.Sees P) : r'.Sees P := by
  induction h with
  | here c => exact ⟨hr.current, hr.next, hr.ahead⟩
  | shift _ ih => exact ih.shift

/-- A call of a parser leads from the first reader to the second one, whatever it gives. -/
inductive Call (r : Reader) : Reader → Prop
  | program (limits : Limits) : Call r (r.program limits).2
  | advance : Call r r.advance.2

/-- Any number of calls of one parser. -/
abbrev Calls : Reader → Reader → Prop := Relation.ReflTransGen Call

theorem program_eq_error {limits : Limits} {f : ParseFault} :
    r.program limits = (.error f, r') ↔ Parse.program limits r = .error f r' := by
  unfold program
  cases Parse.program limits r <;> simp

theorem program_eq_pair {limits : Limits} {t : Tree} :
    r.program limits = (.ok t, r') ↔ Parse.program limits r = .ok t r' := by
  unfold program
  cases Parse.program limits r <;> simp

theorem advance_eq_error {f : ParseFault} :
    r.advance = (.error f, r') ↔ Parse.advance r = .error f r' := by
  unfold Reader.advance
  cases Parse.advance r <;> simp

theorem advance_eq (r : Reader) : r.advance.2 = r.shift := by
  unfold Reader.advance
  cases taken : Parse.advance r with
  | ok t r' => exact (shift_of_advance taken).2
  | error f r' => exact (shift_of_advance_error taken).1

/-- A call goes on in the tokens, and closes nothing that was open before. -/
theorem Call.onward (h : r.Call r') : r.Onward r' ∧ r.context.Le r'.context := by
  cases h with
  | program limits =>
    unfold Reader.program
    cases ran : Parse.program limits r with
    | ok t r' =>
      obtain ⟨on, context⟩ := (Parse.program_restores limits).result ran
      exact ⟨on.onward, .of_eq context⟩
    | error f r' =>
      obtain ⟨on, further, -⟩ := (Parse.program_restores limits).fault ran
      exact ⟨on, further⟩
  | advance =>
    rw [advance_eq]
    exact ⟨.shift (.refl r), .refl _⟩

theorem Calls.onward (h : r.Calls r') : r.Onward r' ∧ r.context.Le r'.context := by
  induction h with
  | refl => exact ⟨.refl r, .refl _⟩
  | tail _ call ih =>
    obtain ⟨on, further⟩ := call.onward
    exact ⟨ih.1.trans on, ih.2.trans further⟩

/-- Holds for parsers on a text: all that they see was read there. -/
structure Serves (text file : String) (r : Reader) : Prop where
  regular : r.Regular
  sees : r.Sees fun o => ∃ i, outcomes text file i = o

variable {text file : String}

theorem Onward.serves (h : r.Onward r') (hr : r.Serves text file) : r'.Serves text file :=
  ⟨h.regular hr.regular, h.sees hr.sees⟩

/-- A parser serves the text of its scanner, wherever this one stands. -/
theorem start_serves {n : Nat}
    (h : Reader.start ((Cursor.ofText file text).behind n).stream = .ok r) :
    r.Serves text file where
  regular := (start_spec (Cursor.streamWithin_endsLast _ _) h).1.regular
  sees := by
    obtain ⟨stands, -⟩ := start_standsAt h
    have given (i : Nat) : ∃ j, outcomes text file j =
        ((Cursor.ofText file text).behind n).stream.nth i := by
      refine ⟨n + i, ?_⟩
      rw [Cursor.nth_stream, outcomes, Cursor.behind_add]
    refine ⟨stands.current ▸ given 0, stands.next ▸ given 1, fun i => ?_⟩
    rw [stands.ahead]
    exact given _

end Reader

/-- The end token stands behind the last character of its text. -/
theorem outcomes_end {text file : String} {i : Nat} {t : Token}
    (h : outcomes text file i = .ok t) (last : t.kind = .endOfText) :
    t = .atEnd t.location ∧ t.location.offset = text.length := by
  refine ⟨outcomes_atEnd h last, ?_⟩
  obtain ⟨offset, inside, stands⟩ := (Cursor.ofText_reads text file).behind i
  obtain ⟨ss, slice, rest, -, cut, -, -, location, -, ends⟩ := Cursor.read_spec (Prod.ext h rfl)
  obtain ⟨nothing, -⟩ := ends last
  rw [nothing] at cut
  have place := Cursor.offset_skip cut
  have length : text.toList.length = text.length := String.length_toList
  have left : (Segment.text ss).length = text.length - offset := by
    rw [stands, List.append_nil] at cut
    rw [← cut, List.length_drop, length]
  rw [location]
  simp only [Cursor.location]
  rw [place, left, stands]
  simp only [Position.ofOffset]
  omega

/-- At the end of a text there is a program without statements. -/
theorem Parse.program_at_end {r : Reader} (hr : r.Regular) (last : r.current.kind = .endOfText)
    (limits : Limits) :
    program limits r = .ok (.node (Label.block.token r.current.location) []) r := by
  have noLine : accept (.mark .newline) r = .ok false r :=
    accept_eq_ok.2 (.inr ⟨by simp [last], rfl, rfl⟩)
  have lines : skipNewlines r = .ok () r :=
    (iterate_eq_ok (fun _ => skipNewline_advancing) hr).2 (.stop (bind_ok noLine))
  have statements (stack : Nat) :
      collect (programStatement? (Grammar.reading limits.nesting stack)) r = .ok [] r := by
    have takes : Grammar.TakesStatement limits.nesting _ :=
      programStatement?_takes (Grammar.reading_sound stack)
    refine (collect_eq_ok takes.advancing hr).2 (.stop ?_)
    simp [programStatement?, last]
  simp only [program, current_bind, get_bind, bind_eq_ok, pure_eq_ok]
  exact ⟨_, _, lines, _, _, statements _, rfl, rfl⟩

/-- The two tokens of a parser behind a program are the end token. -/
theorem Reader.Serves.ends {text file : String} {r : Reader} (h : r.Serves text file)
    (last : r.current.kind = .endOfText) : ∃ location : Location,
      r.current = .atEnd location ∧ r.next = .atEnd location ∧ location.offset = text.length := by
  obtain ⟨i, read⟩ := h.sees.current
  obtain ⟨ending, offset⟩ := outcomes_end read last
  exact ⟨_, ending, (h.regular.current last).trans ending, offset⟩

namespace Reader

variable {text file : String} {r r' : Reader} {limits : Limits}

/-- A program that is found closes all that it opens, and leads to the end of the text. There a
further one has no statements. -/
theorem Serves.program_found {t : Tree} (h : r.Serves text file)
    (found : r.program limits = (.ok t, r')) : r'.context = r.context ∧
      ∃ location : Location, r'.current = .atEnd location ∧ r'.next = .atEnd location ∧
        location.offset = text.length ∧
        ∀ limits', r'.program limits' = (.ok (.node (Label.block.token location) []), r') := by
  have program := program_eq_pair.1 found
  obtain ⟨on, context⟩ := (Parse.program_restores limits).result program
  have ending := Parse.program_ends h.regular program
  have h' := on.onward.serves h
  obtain ⟨location, current, next, offset⟩ := h'.ends ending
  refine ⟨context, location, current, next, offset, fun limits' => ?_⟩
  have further := Parse.program_at_end h'.regular ending limits'
  rw [current] at further
  exact program_eq_pair.2 further

/-- A program that fails closes nothing, and stops at the token that it refuses. -/
theorem program_failed {f : ParseFault} (failed : r.program limits = (.error f, r')) :
    r.context.Le r'.context ∧ ∀ e t, f = .grammar e t → r'.current = t := by
  obtain ⟨-, further, met⟩ := (Parse.program_restores limits).fault (program_eq_error.1 failed)
  refine ⟨further, ?_⟩
  rintro e t rfl
  exact met

/-- Taking a token opens and closes nothing, and moves on, also if no token can be read behind the
next one, which stays in its place then. -/
theorem advance_moves {o : Except ParseFault Token} (ran : r.advance = (o, r')) :
    r'.context = r.context ∧ r'.current = r.next ∧
      ∀ f, o = .error f → r'.next = r.next ∧ ∃ g, f = .reading g := by
  have moved : r' = r.shift := by rw [← r.advance_eq, ran]
  refine ⟨by rw [moved, context_shift], by rw [moved]; rfl, ?_⟩
  rintro f rfl
  obtain ⟨-, next, g, fault, -⟩ := shift_of_advance_error (advance_eq_error.1 ran)
  exact ⟨next, g, fault⟩

end Reader

/-- However a parser was called before, a program that it finds leaves the levels and the mark of a
subroutine as they were, and the parser at the end of the text, where a further program has no
statements. A call that fails closes nothing, and the token that it refuses is the current one
behind it. So the levels never get fewer and the mark is never taken back from call to call. Taking
a token changes neither, also if none can be read for the lookahead, which then stays what it was.
In the run of a program every statement, expression and block that is found closes what it opens. -/
theorem calls_restore {text file : String} {n : Nat} {start r : Reader}
    (started : Reader.start ((Cursor.ofText file text).behind n).stream = .ok start)
    (h : start.Calls r) :
    (∀ limits t r', r.program limits = (.ok t, r') → r'.context = r.context ∧
      ∃ location : Location, r'.current = .atEnd location ∧ r'.next = .atEnd location ∧
        location.offset = text.length ∧
        ∀ limits', r'.program limits' = (.ok (.node (Label.block.token location) []), r')) ∧
    (∀ limits f r', r.program limits = (.error f, r') → r.context.Le r'.context ∧
      ∀ e t, f = .grammar e t → r'.current = t) ∧
    (∀ o r', r.advance = (o, r') → r'.context = r.context ∧ r'.current = r.next ∧
      ∀ f, o = .error f → r'.next = r.next ∧ ∃ g, f = .reading g) ∧
    (∀ r', r.Calls r' → r.context.Le r'.context) ∧
    ∀ limit stack (q q' : Reader) (t : Tree),
      (Grammar.statement limit (Grammar.reading limit stack) q = .ok t q' ∨
        Grammar.expression limit (Grammar.reading limit stack) q = .ok t q' ∨
        Grammar.block limit (Grammar.reading limit stack) q = .ok t q') →
      q'.context = q.context := by
  have serves : r.Serves text file := h.onward.1.serves (Reader.start_serves started)
  refine ⟨fun limits t r' => serves.program_found, fun limits f r' => Reader.program_failed,
    fun o r' => Reader.advance_moves, fun r' later => later.onward.2, ?_⟩
  intro limit stack q q' t found
  have again := Grammar.reading_restores limit stack
  obtain found | found | found := found
  · exact ((Grammar.statement_restores again).result found).2
  · exact ((Grammar.expression_restores again).result found).2
  · exact ((Grammar.block_restores again).result found).2

/-- A program fails in the body of a subroutine, two levels in. A further one goes on from there up
to the end of the text, and stays two levels in. -/
theorem calls_restore_body : ∃ start r t r',
    Reader.start (Cursor.ofText "f.ares" "def()\x7bx y").stream = .ok start ∧ start.Calls r ∧
      (start.program .standard).1 = .error (.grammar (.expected .newline) r.current) ∧
      r.context = ⟨2, true⟩ ∧ r.program .standard = (.ok t, r') ∧ r'.context = ⟨2, true⟩ ∧
      r'.current.location.offset = 9 := by
  have started : Reader.start (Cursor.ofText "f.ares" "def()\x7bx y").stream = .ok
      ⟨⟨.keyword .defWord, "def", none, ⟨⟨1, 1, 0⟩, "f.ares"⟩⟩,
        ⟨.mark .openParen, "(", none, ⟨⟨1, 4, 3⟩, "f.ares"⟩⟩,
        ⟨[.ok ⟨.mark .closeParen, ")", none, ⟨⟨1, 5, 4⟩, "f.ares"⟩⟩,
          .ok ⟨.mark .openBrace, "\x7b", none, ⟨⟨1, 6, 5⟩, "f.ares"⟩⟩,
          .ok ⟨.literal .ident, "x", none, ⟨⟨1, 7, 6⟩, "f.ares"⟩⟩,
          .ok ⟨.literal .ident, "y", none, ⟨⟨1, 9, 8⟩, "f.ares"⟩⟩],
          .endOfText ⟨⟨1, 10, 9⟩, "f.ares"⟩⟩, 0, false⟩ := by
    set_option maxRecDepth 2000 in rfl
  generalize shown : Reader.mk _ _ _ 0 false = start at started
  obtain ⟨restore, -⟩ := calls_restore (n := 0) started
    (.single (.program .standard) : start.Calls (start.program .standard).2)
  have context : (start.program .standard).2.context = ⟨2, true⟩ := by
    subst shown
    decide +kernel
  have failed : (start.program .standard).1 =
      .error (.grammar (.expected .newline) (start.program .standard).2.current) := by
    subst shown
    decide +kernel
  obtain ⟨t, found⟩ : ∃ t, ((start.program .standard).2.program .standard).1 = .ok t := by
    subst shown
    exact ⟨_, rfl⟩
  obtain ⟨context', location, current, -, offset, -⟩ := restore .standard t _ (Prod.ext found rfl)
  refine ⟨start, _, t, _, started, .single (.program .standard), failed, context,
    Prod.ext found rfl, context'.trans context, ?_⟩
  rw [current]
  exact offset

end AresSyntax
