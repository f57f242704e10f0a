import AresSyntax.Proofs.Grammar.Exactness
import AresSyntax.Proofs.Program.Progress
import AresSyntax.Proofs.Reader.Confining
import AresSyntax.Proofs.Reader.Waiting

/-!
Texts on a call stack of some size. A call stack with a bound changes nothing, or the text is
refused for its depth where it would go on otherwise.

* `Parse.program_confined`, `parse_bounded`: what a bound can change, for any text;
* `parse_of_few`: nothing, where the tokens of the text are no more than the bound;
* `parse_exact_confined`: the trees of such texts on a call stack of ordinary size;
* `parse_of_chain`: nor where few assignments and prefix operators stand one below another;
* `parse_refused_of_chain`: but the text is refused where more of them do so.
-/
namespace AresSyntax

variable {limit : Option Nat} {stack : Nat} {text file : String} {ts : List Token} {t : Tree}

namespace Parse

/-- With room for a rule for each token no rule too many waits. -/
theorem program_of_room {r : Reader} (room : r.work < stack) :
    program ⟨limit, some stack⟩ r = program ⟨limit, none⟩ r := by
  have own : r.work < r.ahead.length + 1 := Nat.lt_succ_of_le r.work_le
  simp only [program_eq, Grammar.reading_eq_readingOn]
  exact programBy_readingOn room own

theorem programBy_confined {again again' : Grammar} (h : again.Confined again') :
    (programBy again).Confined (programBy again') :=
  .bind_right fun _ => .bind_left (.bind_right fun _ => .collect (programStatement?_confined h))

/-- A bound on the call stack changes nothing, or a program is refused for its depth. -/
theorem program_confined (limit : Option Nat) (stack : Nat) :
    (program ⟨limit, some stack⟩).Confined (program ⟨limit, none⟩) := by
  intro r
  have room : r.work < max stack (r.work + 1) := by omega
  rw [← program_of_room room]
  simp only [program_eq]
  exact programBy_confined (Grammar.reading_confined limit (Nat.le_max_left _ _)) r

end Parse

/-- What is found on a call stack with a bound is found without one, and what is wrong with a text
is the same, unless too many rules wait for one another. -/
theorem parse_bounded (limit : Option Nat) (stack : Nat) (text file : String) :
    parse ⟨limit, some stack⟩ text file = parse ⟨limit, none⟩ text file ∨
      ∃ t, parse ⟨limit, some stack⟩ text file = .error (.grammar .nestedTooDeeply t) := by
  simp only [parse_eq_stream, TokenStream.parse, Reader.program_answer]
  cases Reader.start (Cursor.ofText file text).stream with
  | error f => exact .inl rfl
  | ok r =>
    obtain same | ⟨t, r', refused⟩ := Parse.program_confined limit stack r
    · exact .inl (congrArg Parse.answer same)
    · exact .inr ⟨t, congrArg Parse.answer refused⟩

theorem parse_of_bounded (found : parse ⟨limit, some stack⟩ text file = .ok t) :
    parse ⟨limit, none⟩ text file = .ok t := by
  obtain same | ⟨e, refused⟩ := parse_bounded limit stack text file
  · exact same.symm.trans found
  · rw [refused] at found
    cases found

/-- The tokens that a reader starts before are all that its stream gives before the end. -/
theorem Reader.work_of_start {s : TokenStream} {r : Reader} (started : Reader.start s = .ok r) :
    r.work = s.pending.countP Outcome.isPresent := by
  unfold Reader.start at started
  split at started
  · cases started
  · rename_i current s' first
    split at started
    · cases started
    · rename_i next stream second
      cases started
      rw [← TokenStream.countP_pending first, List.countP_cons,
        ← TokenStream.countP_pending second, ← List.countP_cons]
      rfl

theorem TokenStream.length_listingOf {os : List Outcome} (clean : listingOf os = (ts, none)) :
    ts.length = os.length := by
  induction os generalizing ts with
  | nil =>
    cases clean
    rfl
  | cons o os ih =>
    cases o with
    | error f => cases clean
    | ok t =>
      obtain ⟨rfl, none⟩ := Prod.mk.inj clean
      exact congrArg (· + 1) (ih (Prod.ext rfl none))

/-- A text is parsed as without a bound on the call stack if it has no more tokens than rules may
wait. -/
theorem parse_of_few (read : tokenize text file = .ok ts) (few : ts.length ≤ stack) :
    parse ⟨limit, some stack⟩ text file = parse ⟨limit, none⟩ text file := by
  simp only [parse_eq_stream, TokenStream.parse, Reader.program_answer]
  cases started : Reader.start (Cursor.ofText file text).stream with
  | error f => rfl
  | ok r =>
    have tokens := TokenStream.length_listingOf (tokenize_eq_ok.1 read)
    rw [List.length_append, List.length_singleton] at tokens
    have work := Reader.work_of_start started
    have least := List.countP_le_length (p := Outcome.isPresent)
      (l := (Cursor.ofText file text).stream.pending)
    exact congrArg Parse.answer (Parse.program_of_room (by omega))

/-- On a call stack of ordinary size a text of at most 3560 tokens has the trees that the grammar
derives from its tokens with at most 256 levels of nesting. -/
theorem parse_exact_confined (read : tokenize text file = .ok ts) (few : ts.length ≤ 3560)
    (t : Tree) : parse .confined text file = .ok t ↔ DerivesProgram (some 256) ts t := by
  rw [Limits.confined, parse_of_few read few, parse_eq_ok]
  constructor
  · rintro ⟨us, read', derived⟩
    rw [read] at read'
    cases read'
    exact derived
  · intro derived
    exact ⟨ts, read, derived⟩

/-- A tree that is found under a limit on levels of nesting is found on any call stack that has room
for these levels and for the rules that wait inside one of them. -/
theorem parse_of_chain {most : Nat} (found : parse ⟨some most, none⟩ text file = .ok t)
    (room : most + 1 + t.chain Kind.waits ≤ stack) :
    parse ⟨some most, some stack⟩ text file = .ok t := by
  obtain ⟨ts, read, derived⟩ := parse_derives found
  obtain ⟨r, started, before⟩ := Reader.start_of_tokenize read
  have derived : DerivesProgram (Limits.mk (some most) (some stack)).nesting ts t := derived
  have program := Parse.program_complete derived before (.inr ⟨most, rfl, room⟩)
  unfold parse
  rw [started]
  exact Reader.program_eq_ok.2 program

/-- In a tree that is found no more rules wait one below another than the call stack has room for.
-/
theorem chain_le_of_parse (found : parse ⟨limit, some stack⟩ text file = .ok t) :
    t.chain Kind.waits ≤ stack := by
  obtain ⟨r, r', -, program⟩ := exists_program_of_parse found
  exact Parse.program_waits limit stack program

/-- A text is refused for its depth if more assignments and prefix operators stand one below another
in its tree than the call stack has room for, however few levels of nesting there are. -/
theorem parse_refused_of_chain (found : parse ⟨limit, none⟩ text file = .ok t)
    (long : stack < t.chain Kind.waits) :
    ∃ e, parse ⟨limit, some stack⟩ text file = .error (.grammar .nestedTooDeeply e) := by
  refine (parse_bounded limit stack text file).resolve_left fun same => ?_
  have few := chain_le_of_parse (same.trans found)
  exact absurd few (Nat.not_le_of_lt long)

end AresSyntax
