import AresSyntax.Proofs.Program.Calls

/-!
Which diagnostics are one line. All of the fixed words are; a line end comes in with the name of the
file, or with what a message takes from the text.

* `ReadFault.Breaks`, `ParseFault.Breaks`: the faults whose messages take a line end from the text;
* `ReadFault.render_line`, `ParseFault.render_line`: the diagnostics of faults that a text gives;
* `diagnostics_line`: the diagnostics of reading and of parsing.
-/
namespace AresSyntax

/-! ## Words and numbers -/

theorem digitChar_ne_line : ∀ n < 16, Nat.digitChar n ≠ '\n' := by
  decide

theorem line_not_mem_toDigits {b : Nat} (hb : 1 < b) (digits : b ≤ 16) (n : Nat) :
    '\n' ∉ Nat.toDigits b n := by
  induction n using Nat.strongRecOn with
  | ind n ih =>
    rw [Nat.toDigits_eq_if hb]
    split
    · rename_i small
      rw [List.mem_singleton]
      exact (digitChar_ne_line n (by omega)).symm
    · have less : n / b < n := Nat.div_lt_self (by omega) hb
      have last : n % b < b := Nat.mod_lt _ (by omega)
      rw [List.mem_append, not_or, List.mem_singleton]
      exact ⟨ih _ less, (digitChar_ne_line _ (by omega)).symm⟩

theorem line_not_mem_toString (n : Int) : '\n' ∉ (toString n).toList := by
  have positive (m : Nat) : '\n' ∉ (toString m).toList := by
    rw [Nat.toString_eq_ofList_toDigits, String.toList_ofList]
    exact line_not_mem_toDigits (by decide) (by decide) m
  cases n with
  | ofNat m => exact positive m
  | negSucc m =>
    have shown : toString (Int.negSucc m) = "-" ++ toString (m + 1) := rfl
    rw [shown, String.toList_append, List.mem_append, not_or]
    exact ⟨by decide, positive _⟩

theorem Text.line_not_mem_hexadecimal (width n : Nat) :
    '\n' ∉ (hexadecimal width n).toList := by
  rw [hexadecimal, String.toList_ofList, List.mem_append, not_or]
  exact ⟨fun line => absurd (List.eq_of_mem_replicate line) (by decide),
    line_not_mem_toDigits (by decide) (by decide) n⟩

/-- The place in front of a diagnostic has a line end only in the name of its file. -/
theorem Location.line_mem_render (l : Location) :
    '\n' ∈ l.render.toList ↔ '\n' ∈ l.file.toList := by
  have colon : '\n' ∉ ":".toList := by decide
  simp only [render, String.toList_append, List.mem_append, line_not_mem_toString, colon, or_false]

theorem Diagnostic.line_mem_render (d : Diagnostic) :
    '\n' ∈ d.render.toList ↔ '\n' ∈ d.location.file.toList ∨ '\n' ∈ d.message.toList := by
  have colon : '\n' ∉ ": ".toList := by decide
  simp only [render, String.toList_append, List.mem_append, Location.line_mem_render, colon,
    or_false]

namespace LexicalError

/-- A character is shown without a line end, also the line end itself. -/
theorem line_not_mem_shownChar (c : Char) : '\n' ∉ (shownChar c).toList := by
  unfold shownChar
  split
  · rename_i printable
    have unprintable : Text.isPrintable '\n' = false := by decide +kernel
    rw [String.toList_singleton, List.mem_singleton]
    rintro rfl
    rw [unprintable] at printable
    cases printable
  · split
    · rw [String.toList_append, List.mem_append, not_or]
      exact ⟨by decide, Text.line_not_mem_hexadecimal _ _⟩
    · rw [String.toList_append, List.mem_append, not_or]
      exact ⟨by decide, Text.line_not_mem_hexadecimal _ _⟩

/-- Of all lexical errors only invalid escapes show what they found as it is. -/
theorem line_mem_message (e : LexicalError) :
    '\n' ∈ e.message.toList ↔ ∃ shown, e = invalidEscape shown ∧ '\n' ∈ shown.toList := by
  cases e with
  | unrecognized c =>
    have shows : (unrecognized c).message =
      "unrecognized character '" ++ shownChar c ++ "'" := rfl
    refine iff_of_false ?_ (by rintro ⟨_, ⟨⟩, _⟩)
    rw [shows, String.toList_append, String.toList_append, List.mem_append, List.mem_append,
      not_or, not_or]
    exact ⟨⟨by decide, line_not_mem_shownChar c⟩, by decide⟩
  | invalidEscape shown =>
    have shows : (invalidEscape shown).message = "invalid escape character " ++ shown := rfl
    have words : '\n' ∉ "invalid escape character ".toList := by decide
    rw [shows, String.toList_append, List.mem_append, or_iff_right words]
    simp only [invalidEscape.injEq, exists_eq_left']
  | unterminatedString | numberTooLarge | incompleteHexEscape | unterminatedComment
  | malformedHex =>
    simp only [reduceCtorEq, false_and, exists_false, iff_false]
    decide

end LexicalError

theorem GrammarError.line_not_mem_message (e : GrammarError) : '\n' ∉ e.message.toList := by
  cases e with
  | expected e => cases e <;> decide
  | _ => decide

/-! ## What messages take from a text -/

/-- In the text a backslash stands before the character `c`, which is at the location. -/
def EscapedAt (text : String) (c : Char) (l : Location) : Prop :=
  ∃ before behind, text.toList = before ++ '\\' :: c :: behind ∧
    l.offset = (before.length : Int) + 1

namespace Lexeme

theorem quotationFrom_invalid {q : Char} {n k : Nat} {contents cs : List Char} {shown : String}
    (h : (quotationFrom q n contents cs).result = .error (.error (.invalidEscape shown) k)) :
    ∃ before c behind, cs = before ++ '\\' :: c :: behind ∧ shown = String.singleton c ∧
      k = n + before.length + 1 := by
  fun_induction quotationFrom q n contents cs
  case case4 n contents e cs d _ _ ih =>
    obtain ⟨before, c, behind, rfl, shown, rfl⟩ := ih h
    exact ⟨'\\' :: e :: before, c, behind, rfl, shown, by simp only [List.length_cons]; omega⟩
  case case7 n contents high _ low cs _ _ _ ih =>
    obtain ⟨before, c, behind, rfl, shown, rfl⟩ := ih h
    exact ⟨'\\' :: 'x' :: high :: low :: before, c, behind, rfl, shown,
      by simp only [List.length_cons]; omega⟩
  case case10 n contents e cs _ _ _ =>
    cases h
    exact ⟨[], e, cs, rfl, rfl, rfl⟩
  case case11 n contents c cs _ _ ih =>
    obtain ⟨before, c', behind, rfl, shown, rfl⟩ := ih h
    exact ⟨c :: before, c', behind, rfl, shown, by simp only [List.length_cons]; omega⟩
  all_goals cases h

/-- Only strings have invalid escapes. -/
theorem read_invalid {cs : List Char} {k : Nat} {shown : String}
    (h : (read cs).result = .error (.error (.invalidEscape shown) k)) :
    ∃ before c behind, cs = before ++ '\\' :: c :: behind ∧ shown = String.singleton c ∧
      k = before.length + 1 := by
  have noNumber {r : Reading} (number : r.IsNumber)
      (h : r.result = .error (.error (.invalidEscape shown) k)) : False := by
    obtain same | same | ⟨count, same⟩ := number.flaw _ h <;> cases same
  unfold read at h
  split at h
  · cases h
  rename_i c cs
  split at h
  · cases h
  split at h
  · cases h
  split at h
  · exact (noNumber (hexadecimal_isNumber _) h).elim
  split at h
  · exact (noNumber (number_isNumber _) h).elim
  split at h
  · obtain ⟨before, d, behind, rfl, shown, rfl⟩ := quotationFrom_invalid h
    exact ⟨c :: before, d, behind, rfl, shown, by simp only [List.length_cons]; omega⟩
  split at h
  · cases h
  · cases h

end Lexeme

variable {text file : String}

/-- Where an escape is refused, the text has a backslash before the character that is shown. -/
theorem Cursor.Reads.invalid {c : Cursor} (h : c.Reads text file) {shown : String} {l : Location}
    (fault : c.read.1 = .error (.lexical (.invalidEscape shown) l)) :
    ∃ ch, shown = String.singleton ch ∧ EscapedAt text ch l := by
  cases open_ : (Trivia.read c.rest).unclosed with
  | some opened =>
    rw [Cursor.read] at fault
    simp [open_] at fault
  | none =>
    have stands := h.skip (Trivia.read c.rest).length
    rw [read_of_closed open_ rfl] at fault
    generalize c.skip (Trivia.read c.rest).length = start at stands fault
    simp only [outcome] at fault
    cases result : (Lexeme.read start.rest).result with
    | ok l =>
      rw [result] at fault
      cases fault
    | error flaw =>
      rw [result] at fault
      cases flaw with
      | tooManyDigits count => cases fault
      | error e k =>
        cases fault
        obtain ⟨before, ch, behind, cut, rfl, rfl⟩ := Lexeme.read_invalid result
        obtain ⟨offset, inside, rfl⟩ := stands
        have whole := List.take_append_drop offset text.toList
        have length : text.toList.length = text.length := String.length_toList
        simp only at cut
        refine ⟨ch, rfl, text.toList.take offset ++ before, behind, ?_, ?_⟩
        · rw [List.append_assoc, ← cut, whole]
        · have place : (Cursor.skip ⟨file, .ofOffset text.toList offset, text.toList.drop offset⟩
              (before.length + 1)).position.offset = (offset : Int) + (before.length + 1 : Nat) := by
            have there : (Cursor.mk file (.ofOffset text.toList offset)
                (text.toList.drop offset)).rest = (before ++ ['\\']) ++ ch :: behind := by
              rw [List.append_assoc]
              exact cut
            have moved := offset_skip there
            rwa [List.length_append, List.length_singleton] at moved
          refine place.trans ?_
          rw [List.length_append, List.length_take, length, Nat.min_eq_left inside]
          omega

/-- Of all tokens that a text has, only strings and line ends show a line end. -/
theorem line_mem_text {i : Nat} {t : Token} (h : outcomes text file i = .ok t)
    (line : '\n' ∈ t.text.toList) : t.kind = .literal .string ∨ t.kind = .mark .newline := by
  obtain ⟨_, slice, _, _, _, _, spells, -⟩ := Cursor.read_spec (Prod.ext h rfl)
  by_contra other
  rw [not_or] at other
  have shown : slice = t.text.toList := spells.shown other.1
  exact (spells.plain other.1 other.2 _ (shown ▸ line)).1 rfl

/-- The words for a token show its text, but for line ends and the end of the text. -/
theorem Token.line_mem_unexpected (t : Token) : '\n' ∈ t.unexpected.toList ↔
    t.kind ≠ .mark .newline ∧ t.kind ≠ .endOfText ∧ '\n' ∈ t.text.toList := by
  have shows {words : String} (plain : '\n' ∉ words.toList) :
      '\n' ∈ (words ++ t.text ++ "', ").toList ↔ '\n' ∈ t.text.toList := by
    have last : '\n' ∉ "', ".toList := by decide
    rw [String.toList_append, String.toList_append, List.mem_append, List.mem_append,
      or_iff_left last, or_iff_right plain]
  unfold unexpected
  split
  · rename_i kind
    refine iff_of_false (by decide) ?_
    rintro ⟨other, -⟩
    exact other kind
  · rename_i kind
    refine iff_of_false (by decide) ?_
    rintro ⟨-, other, -⟩
    exact other kind
  · rename_i kind
    rw [shows (by decide)]
    simp [kind]
  · rename_i kind
    rw [shows (by decide)]
    simp [kind]
  · rename_i noLine noEnd _ _
    rw [shows (by decide)]
    exact ⟨fun line => ⟨noLine, noEnd, line⟩, fun h => h.2.2⟩

/-! ## Diagnostics -/

/-- The diagnostic of a fault, if it has one. -/
def ReadFault.diagnostic? : ReadFault → Option Diagnostic
  | lexical e location => some (e.diagnostic location)
  | tooManyDigits _ => none

def ParseFault.diagnostic? : ParseFault → Option Diagnostic
  | reading f => f.diagnostic?
  | grammar e found => some (e.diagnostic found)

/-- The message of the fault takes a line end from the text: it shows the one that follows a
backslash in a string. -/
def ReadFault.Breaks (text : String) : ReadFault → Prop
  | lexical e location => e = .invalidEscape "\n" ∧ EscapedAt text '\n' location
  | tooManyDigits _ => False

/-- The message of the fault takes a line end from the text, as a fault of reading does or with the
contents of a string that it refuses. -/
def ParseFault.Breaks (text : String) : ParseFault → Prop
  | reading f => f.Breaks text
  | grammar _ found => found.kind = .literal .string ∧ '\n' ∈ found.text.toList

theorem ReadFault.render_line {i : Nat} {f : ReadFault} {d : Diagnostic}
    (h : outcomes text file i = .error f) (shown : f.diagnostic? = some d) :
    '\n' ∈ d.render.toList ↔ '\n' ∈ file.toList ∨ f.Breaks text := by
  cases f with
  | tooManyDigits count => cases shown
  | lexical e location =>
    cases shown
    have reads := (Cursor.ofText_reads text file).behind i
    obtain ⟨offset, -, place⟩ := reads.read.1 location (by
      rw [show ((Cursor.ofText file text).behind i).read.1 = _ from h]
      exact List.mem_singleton.2 rfl)
    have named : (e.diagnostic location).location.file = file := congrArg Location.file place
    rw [Diagnostic.line_mem_render, named]
    refine or_congr_right ?_
    rw [show (e.diagnostic location).message = e.message from rfl, e.line_mem_message, Breaks]
    constructor
    · rintro ⟨shown, rfl, line⟩
      obtain ⟨ch, rfl, escaped⟩ := reads.invalid h
      obtain rfl : '\n' = ch := by simpa using line
      exact ⟨rfl, escaped⟩
    · rintro ⟨rfl, -⟩
      exact ⟨_, rfl, by decide⟩

theorem ParseFault.render_line {i : Nat} {e : GrammarError} {found : Token}
    (h : outcomes text file i = .ok found) :
    '\n' ∈ (e.diagnostic found).render.toList ↔
      '\n' ∈ file.toList ∨ (grammar e found).Breaks text := by
  have reads := (Cursor.ofText_reads text file).behind i
  obtain ⟨offset, -, place⟩ := reads.read.1 found.location (by
    rw [show ((Cursor.ofText file text).behind i).read.1 = _ from h]
    exact List.mem_singleton.2 rfl)
  have named : (e.diagnostic found).location.file = file := congrArg Location.file place
  rw [Diagnostic.line_mem_render, named]
  refine or_congr_right ?_
  rw [show (e.diagnostic found).message = found.unexpected ++ e.message from rfl,
    String.toList_append, List.mem_append, or_iff_left e.line_not_mem_message,
    Token.line_mem_unexpected, Breaks]
  constructor
  · rintro ⟨noLine, -, line⟩
    exact ⟨(line_mem_text h line).resolve_right noLine, line⟩
  · rintro ⟨kind, line⟩
    exact ⟨by simp [kind], by simp [kind], line⟩

/-- What a text is refused with, by whatever limits, is an outcome of the text, or refuses one. -/
theorem outcome_of_parse {limits : Limits} {f : ParseFault}
    (h : parse limits text file = .error f) :
    ∃ i, match f with
      | .reading f => outcomes text file i = .error f
      | .grammar _ found => outcomes text file i = .ok found := by
  unfold parse at h
  split at h
  · rename_i f failed
    cases h
    obtain ⟨i, -, -, fault⟩ := Reader.start_eq_error.1 failed
    rw [nth_stream_eq] at fault
    exact ⟨i, fault⟩
  · rename_i r started
    have serves : r.Serves text file := Reader.start_serves (n := 0) started
    have ran : r.program limits = (.error f, (r.program limits).2) := Prod.ext h rfl
    obtain ⟨on, -, met⟩ := (Parse.program_restores limits).fault (Reader.program_eq_error.1 ran)
    cases f with
    | grammar e found =>
      obtain ⟨i, read⟩ := (on.serves serves).sees.current
      exact ⟨i, read.trans (congrArg _ met)⟩
    | reading f =>
      obtain ⟨s, on', fault⟩ := met
      obtain ⟨i, read⟩ := (on'.serves serves).sees.ahead 0
      rw [TokenStream.next_eq] at fault
      exact ⟨i, read.trans fault⟩

/-- A diagnostic of reading or parsing is one line unless the name of the file has a line end, or
the fault takes one from the text: an escape that is refused is a line end, or a string that is
refused has one. -/
theorem diagnostics_line (limits : Limits) (text file : String) :
    (∀ f d, tokenize text file = .error f → f.diagnostic? = some d →
      ('\n' ∈ d.render.toList ↔ '\n' ∈ file.toList ∨ f.Breaks text)) ∧
    ∀ f d, parse limits text file = .error f → f.diagnostic? = some d →
      ('\n' ∈ d.render.toList ↔ '\n' ∈ file.toList ∨ f.Breaks text) := by
  constructor
  · intro f d h shown
    obtain ⟨k, -, fault⟩ := tokenize_eq_error.1 h
    exact ReadFault.render_line fault shown
  · intro f d h shown
    obtain ⟨i, outcome⟩ := outcome_of_parse h
    cases f with
    | reading f => exact ReadFault.render_line outcome shown
    | grammar e found =>
      cases shown
      exact ParseFault.render_line outcome

/-- Not every diagnostic is one line: one shows an escaped line end, and one the contents of a
string. -/
theorem diagnostics_of_two_lines :
    (∃ f d, tokenize "\"\\\n\"" "<string>" = .error f ∧ f.diagnostic? = some d ∧
      d.render = "<string>:1:3: invalid escape character \n") ∧
    (∃ f d, parse .standard "x 'a\nb'" "<string>" = .error f ∧ f.diagnostic? = some d ∧
      d.render = "<string>:1:3: unexpected literal near 'a\nb', expected end-of-file") ∧
    ¬ ∀ text file f d, '\n' ∉ file.toList → tokenize text file = .error f →
      f.diagnostic? = some d → '\n' ∉ d.render.toList := by
  have escape : tokenize "\"\\\n\"" "<string>" =
      .error (.lexical (.invalidEscape "\n") ⟨⟨1, 3, 2⟩, "<string>"⟩) := by decide +kernel
  have refused : parse .standard "x 'a\nb'" "<string>" =
      .error (.grammar (.expected .endOfText) ⟨.literal .string, "a\nb", some (.string "a\nb"),
        ⟨⟨1, 3, 2⟩, "<string>"⟩⟩) := by decide +kernel
  have shown : (LexicalError.diagnostic (.invalidEscape "\n") ⟨⟨1, 3, 2⟩, "<string>"⟩).render =
    "<string>:1:3: invalid escape character \n" := by decide
  refine ⟨⟨_, _, escape, rfl, shown⟩, ⟨_, _, refused, rfl, by decide⟩, ?_⟩
  intro single
  refine single _ _ _ _ (by decide) escape rfl ?_
  rw [shown]
  decide

end AresSyntax
