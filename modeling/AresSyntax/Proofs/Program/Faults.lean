import Mathlib.Data.List.TakeWhile
import AresSyntax.Command.Run
import AresSyntax.Proofs.Program.Streaming

/-!
What the faults of texts are: errors with a listed code, and decimal integers of more digits than a
value is computed for.

* `Lexeme.read_eq_tooManyDigits`: the texts that start with such an integer;
* `ReadFault.Explained`: a listed code, or such an integer in the text;
* `refused_digits`: texts of digits have faults without a code;
* `faults_explained`: the faults of reading, of parsing and of the command.
-/
namespace AresSyntax

theorem LexicalError.code_mem (e : LexicalError) : e.code ∈ titles.map Prod.fst := by
  cases e <;> simp [code, titles]

theorem GrammarError.code_mem (e : GrammarError) : e.code ∈ titles.map Prod.fst := by
  cases e <;> simp [code, titles]

namespace Lexeme

/-- The text starts with a decimal integer of `n` digits, more than a value is computed for. A point
behind the digits would make a float of them, unless a second one follows. -/
structure LongInteger (n : Nat) (cs : List Char) : Prop where
  digits : (cs.takeWhile Char.isDigit).length = n
  long : digitLimit < n
  whole : ∀ rest, cs.dropWhile Char.isDigit = '.' :: rest → rest.head? = some '.'

theorem integer_ne_tooManyDigits {text : List Char} {value n : Nat} :
    (integer text value).result ≠ .error (.tooManyDigits n) := by
  unfold integer
  split <;> exact nofun

theorem decimal_eq_tooManyDigits {digits : List Char} {n : Nat} :
    (decimal digits).result = .error (.tooManyDigits n) ↔ digits.length = n ∧ digitLimit < n := by
  unfold decimal
  split
  · rename_i long
    simp only [Except.error.injEq, Flaw.tooManyDigits.injEq]
    exact ⟨fun same => ⟨same, same ▸ long⟩, And.left⟩
  · rename_i short
    exact ⟨fun h => absurd h integer_ne_tooManyDigits, fun h => absurd (h.1 ▸ h.2) short⟩

theorem number_eq_tooManyDigits {cs : List Char} {n : Nat} :
    (number cs).result = .error (.tooManyDigits n) ↔ LongInteger n cs := by
  have long_iff (whole : ∀ rest, cs.dropWhile Char.isDigit = '.' :: rest → rest.head? = some '.') :
      (decimal (cs.takeWhile Char.isDigit)).result = .error (.tooManyDigits n) ↔
        LongInteger n cs :=
    decimal_eq_tooManyDigits.trans ⟨fun h => ⟨h.1, h.2, whole⟩, fun h => ⟨h.1, h.2⟩⟩
  unfold number
  simp only
  split
  · rename_i rest point
    split
    · rename_i range
      exact long_iff fun rest' same => by cases point.symm.trans same; exact range
    · rename_i float
      exact ⟨nofun, fun h => absurd (h.whole rest point) float⟩
  · rename_i other
    exact long_iff fun rest same => absurd same (other rest)

theorem hexadecimal_ne_tooManyDigits {cs : List Char} {n : Nat} :
    (hexadecimal cs).result ≠ .error (.tooManyDigits n) := by
  unfold hexadecimal
  simp only
  split
  · exact nofun
  · exact integer_ne_tooManyDigits

theorem quotationFrom_ne_tooManyDigits {q : Char} {m n : Nat} {contents cs : List Char} :
    (quotationFrom q m contents cs).result ≠ .error (.tooManyDigits n) := by
  fun_induction quotationFrom q m contents cs
  all_goals first | assumption | simp [Reading.fail, string]

theorem LongInteger.exists_cons {n : Nat} {cs : List Char} (h : LongInteger n cs) :
    ∃ c d rest, cs = c :: d :: rest ∧ c.isDigit ∧ d.isDigit := by
  have some := h.digits
  have long := h.long
  unfold digitLimit at long
  match cs with
  | [] => simp at some; omega
  | [c] =>
    have few := (List.takeWhile_prefix Char.isDigit (l := [c])).length_le
    rw [List.length_singleton] at few
    omega
  | c :: d :: rest =>
    refine ⟨c, d, rest, rfl, ?_⟩
    by_cases hc : c.isDigit
    · by_cases hd : d.isDigit
      · exact ⟨hc, hd⟩
      · simp [hc, hd] at some; omega
    · simp [hc] at some; omega

/-- Two digits start a number. -/
theorem read_of_digits {c d : Char} {rest : List Char} (hc : c.isDigit) (hd : d.isDigit) :
    read (c :: d :: rest) = number (c :: d :: rest) := by
  refine read_of_digit hc ?_
  constructor
  · rintro ⟨⟩
    exact absurd hd (by decide)
  · rintro ⟨⟩
    exact absurd hd (by decide)

/-- The readings that count too many digits are those of a decimal integer beyond the limit. -/
theorem read_eq_tooManyDigits {cs : List Char} {n : Nat} :
    (read cs).result = .error (.tooManyDigits n) ↔ LongInteger n cs := by
  constructor
  · intro h
    unfold read at h
    split at h
    · cases h
    split at h
    · cases h
    split at h
    · cases h
    split at h
    · exact absurd h hexadecimal_ne_tooManyDigits
    split at h
    · exact number_eq_tooManyDigits.1 h
    split at h
    · exact absurd h quotationFrom_ne_tooManyDigits
    split at h
    · cases h
    · cases h
  · intro h
    obtain ⟨c, d, rest, rfl, hc, hd⟩ := h.exists_cons
    rw [read_of_digits hc hd]
    exact number_eq_tooManyDigits.2 h

end Lexeme

/-- A decimal integer of `n` digits, more than a value is computed for, stands in the text. -/
def HasLongInteger (n : Nat) (text : String) : Prop :=
  ∃ cs, cs <:+ text.toList ∧ Lexeme.LongInteger n cs

/-- The fault has a listed code, or is about too many digits and the text has an integer of that
many. -/
def ReadFault.Explained (text : String) : ReadFault → Prop
  | lexical e _ => e.code ∈ LexicalError.titles.map Prod.fst
  | tooManyDigits n => HasLongInteger n text

def ParseFault.Explained (text : String) : ParseFault → Prop
  | reading f => f.Explained text
  | grammar e _ => e.code ∈ GrammarError.titles.map Prod.fst

namespace Cursor

theorem rest_read_suffix (c : Cursor) : c.read.2.rest <:+ c.rest := by
  unfold read
  simp only
  split
  · exact List.drop_suffix _ _
  · exact (List.drop_suffix _ _).trans (List.drop_suffix _ _)

theorem rest_behind_suffix (c : Cursor) (i : Nat) : (c.behind i).rest <:+ c.rest := by
  induction i generalizing c with
  | zero => exact List.suffix_refl _
  | succ i ih =>
    rw [behind_succ]
    exact (ih c.read.2).trans c.rest_read_suffix

/-- Reading counts too many digits where a decimal integer beyond the limit stands behind the
trivia. -/
theorem read_eq_tooManyDigits {c : Cursor} {n : Nat} :
    c.read.1 = .error (.tooManyDigits n) ↔ (Trivia.read c.rest).unclosed = none ∧
      Lexeme.LongInteger n (c.rest.drop (Trivia.read c.rest).length) := by
  cases open_ : (Trivia.read c.rest).unclosed with
  | some opened => simp [read, open_]
  | none =>
    rw [read_of_closed open_ rfl, ← Lexeme.read_eq_tooManyDigits, outcome, rest_skip]
    simp only [true_and]
    split
    · rename_i same
      simp [same]
    · rename_i same
      simp [same]
    · rename_i same
      simp [same]

end Cursor

theorem explained_of_outcomes {text file : String} {i : Nat} {f : ReadFault}
    (h : outcomes text file i = .error f) : f.Explained text := by
  cases f with
  | lexical e location => exact e.code_mem
  | tooManyDigits n =>
    have long := (Cursor.read_eq_tooManyDigits.1 h).2
    exact ⟨_, (List.drop_suffix _ _).trans (Cursor.rest_behind_suffix _ i), long⟩

/-- The fault of a listing is the outcome behind its tokens. -/
theorem TokenStream.nth_length_of_listing {s : TokenStream} {f : ReadFault}
    (h : s.listing.2 = some f) : s.nth s.listing.1.length = .error f := by
  obtain ⟨pending, ending⟩ := s
  induction pending with
  | nil =>
    cases ending with
    | endOfText location => cases h
    | fault g =>
      cases h
      rfl
  | cons o pending ih =>
    cases o with
    | error g =>
      cases h
      rfl
    | ok t => exact ih h

namespace Command.Request

variable {r : Request} {text : String}

/-- A run ends with status 0 or 1, or breaks off at a decimal integer of too many digits. -/
def Settles (text : String) : Except Crash Output → Prop
  | .ok o => o.status = 0 ∨ o.status = 1
  | .error (.tooManyDigits n) => HasLongInteger n text
  | .error _ => False

theorem readFailed_settles {f : ReadFault} {printed logged : String} (h : f.Explained text) :
    Settles text (r.readFailed printed logged f) := by
  cases f with
  | lexical e location => exact .inr rfl
  | tooManyDigits n => exact h

theorem listTokens_settles {s : TokenStream}
    (h : ∀ i f, s.nth i = .error f → f.Explained text) : Settles text (r.listTokens s) := by
  unfold listTokens
  cases fault : s.listing.2 with
  | none =>
    simp only [fault]
    exact .inl rfl
  | some f =>
    simp only [fault]
    exact readFailed_settles (h _ f (TokenStream.nth_length_of_listing fault))

theorem printTree_settles {s : TokenStream}
    (h : ∀ i f, s.nth i = .error f → f.Explained text) : Settles text (r.printTree s) := by
  unfold printTree
  cases started : Reader.start s with
  | error f =>
    obtain ⟨i, -, -, fault⟩ := Reader.start_eq_error.1 started
    exact readFailed_settles (h i f fault)
  | ok reader =>
    have result : s.parse ⟨some 256, none⟩ = (reader.program .standard).1 := by
      simp only [TokenStream.parse, started]
      rfl
    simp only
    rw [← result]
    cases parsed : s.parse ⟨some 256, none⟩ with
    | ok u => exact .inl rfl
    | error f =>
      cases f with
      | grammar e t => exact .inr rfl
      | reading f =>
        obtain ⟨i, -, fault⟩ := TokenStream.fault_of_parse parsed
        exact readFailed_settles (h i f fault)

end Command.Request

/-- A text of digits beyond the limit gives a fault at once. -/
theorem outcomes_digits (digits : List Char) (all : ∀ d ∈ digits, d.isDigit)
    (long : digitLimit < digits.length) (file : String) :
    outcomes (String.ofList digits) file 0 = .error (.tooManyDigits digits.length) := by
  have integer : Lexeme.LongInteger digits.length digits := by
    have none : digits.dropWhile Char.isDigit = [] := List.dropWhile_eq_nil_iff.2 all
    exact ⟨by rw [List.takeWhile_eq_self_iff.2 all], long, by simp [none]⟩
  obtain ⟨c, d, rest, rfl, first, -⟩ := integer.exists_cons
  refine Cursor.read_eq_tooManyDigits.2 ?_
  simp only [Cursor.behind, Cursor.ofText, String.toList_ofList, Trivia.read_digit first]
  exact ⟨trivial, integer⟩

/-- A text of digits beyond the limit has neither tokens nor a tree, and no code says why. -/
theorem refused_digits {n : Nat} (long : digitLimit < n) (limit : Option Nat) (file : String) :
    tokenize (String.ofList (List.replicate n '1')) file = .error (.tooManyDigits n) ∧
    parse ⟨limit, none⟩ (String.ofList (List.replicate n '1')) file =
      .error (.reading (.tooManyDigits n)) := by
  have fault := outcomes_digits (List.replicate n '1')
    (fun d hd => List.eq_of_mem_replicate hd ▸ rfl) (by rwa [List.length_replicate]) file
  rw [List.length_replicate] at fault
  refine ⟨tokenize_eq_error.2 ⟨0, nofun, fault⟩, TokenStream.parse_of_start_error ?_⟩
  exact Reader.start_eq_error.2 ⟨0, Nat.zero_lt_two, nofun, by rw [nth_stream_eq, fault]⟩

/-- The tokens and the tree of a text are refused with a listed code, and the command answers with
status 0 or 1. Only a decimal integer in the text of more digits than a value is computed for has
no code, and breaks the command off. -/
theorem faults_explained (limit : Option Nat) (text file : String) (r : Command.Request) :
    (∀ f, tokenize text file = .error f → f.Explained text) ∧
    (∀ f, parse ⟨limit, none⟩ text file = .error f → f.Explained text) ∧
    Command.Request.Settles text (r.answer (.ok text)) := by
  have faulty {file : String} (i : Nat) (f : ReadFault)
      (h : (Cursor.ofText file text).stream.nth i = .error f) : f.Explained text := by
    rw [nth_stream_eq] at h
    exact explained_of_outcomes h
  refine ⟨fun f h => ?_, fun f h => ?_, ?_⟩
  · obtain ⟨k, -, fault⟩ := tokenize_eq_error.1 h
    exact explained_of_outcomes fault
  · cases f with
    | grammar e t => exact e.code_mem
    | reading f =>
      obtain ⟨k, -, fault⟩ := TokenStream.fault_of_parse h
      exact faulty k f fault
  · simp only [Command.Request.answer, Command.Request.answerText]
    split
    · exact Command.Request.listTokens_settles faulty
    · exact Command.Request.printTree_settles faulty

/-- Not every fault has a code, since a text may have 4301 digits. -/
theorem digits_without_code :
    tokenize (String.ofList (List.replicate 4301 '1')) "<string>" =
      .error (.tooManyDigits 4301) ∧
    parse .standard (String.ofList (List.replicate 4301 '1')) "<string>" =
      .error (.reading (.tooManyDigits 4301)) ∧
    ¬ ∀ text file f, tokenize text file = .error f →
      ∃ e location, f = .lexical e location ∧ e.code ∈ LexicalError.titles.map Prod.fst := by
  have long : digitLimit < 4301 := by decide
  obtain ⟨refused, refused'⟩ := refused_digits long (some 256) "<string>"
  refine ⟨refused, refused', fun coded => ?_⟩
  obtain ⟨e, location, same, -⟩ := coded _ _ _ refused
  cases same

end AresSyntax
