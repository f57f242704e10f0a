import AresSyntax.Cursor
import AresSyntax.Proofs.Scan.Lexemes

/-!
A text in pieces: blanks, comments and tokens, one behind the other.

* `Segment`, `Segment.chars`: the pieces, and the characters they are;
* `Segment.Fits`, `Segment.FitAll`: the form of a piece before what stands behind it;
* `Trivia.read_spec`: the trivia that are read are blanks and comments of this form.
-/
namespace AresSyntax

/-- A token without its place. -/
def Token.lexeme (t : Token) : Lexeme := ⟨t.kind, t.text, t.value⟩

/-- A piece of a text. Comments are given by what stands behind or between their marks. -/
inductive Segment
  | blank (c : Char)
  | lineComment (body : List Char)
  | longComment (body : List Char)
  | token (t : Token) (slice : List Char)

namespace Segment

/-- The mark at both ends of a long comment. -/
def mark : List Char := ['=', '=', '=']

/-- The characters of a piece. -/
def chars : Segment → List Char
  | blank c => [c]
  | lineComment body => '#' :: body
  | longComment body => mark ++ body ++ mark
  | token _ slice => slice

def token? : Segment → Option Token
  | token t _ => some t
  | _ => none

/-- The form of a piece before the text `behind`: a line comment goes on up to a line end or the
end of the text, a long comment up to the first mark, and characters spell their token. -/
def Fits (behind : List Char) : Segment → Prop
  | blank c => c = ' ' ∨ c = '\t' ∨ c = '\r'
  | lineComment body => '\n' ∉ body ∧ (behind = [] ∨ behind.head? = some '\n')
  | longComment body => ¬ mark <:+: body ++ ['=', '=']
  | token t slice => Lexeme.Spells slice t.lexeme

/-- The characters of pieces, one behind the other. -/
def text (ss : List Segment) : List Char := ss.flatMap chars

/-- Each piece has its form before the pieces behind it and the text `behind` these. -/
def FitAll : List Segment → List Char → Prop
  | [], _ => True
  | s :: ss, behind => s.Fits (text ss ++ behind) ∧ FitAll ss behind

@[simp] theorem text_nil : text [] = [] := rfl

@[simp] theorem text_cons (s : Segment) (ss : List Segment) :
    text (s :: ss) = s.chars ++ text ss := rfl

@[simp] theorem text_append (xs ys : List Segment) : text (xs ++ ys) = text xs ++ text ys :=
  List.flatMap_append

theorem fitAll_append {xs ys : List Segment} {behind : List Char} :
    FitAll (xs ++ ys) behind ↔ FitAll xs (text ys ++ behind) ∧ FitAll ys behind := by
  induction xs with
  | nil => simp [FitAll]
  | cons x xs ih => simp [FitAll, ih, List.append_assoc, and_assoc]

/-- The tokens among pieces. -/
def tokens (ss : List Segment) : List Token := ss.filterMap token?

@[simp] theorem tokens_nil : tokens [] = [] := rfl

@[simp] theorem tokens_cons (s : Segment) (ss : List Segment) :
    tokens (s :: ss) = s.token?.toList ++ tokens ss := by
  cases s <;> rfl

@[simp] theorem tokens_append (xs ys : List Segment) : tokens (xs ++ ys) = tokens xs ++ tokens ys :=
  List.filterMap_append

theorem token?_eq_some {s : Segment} {t : Token} (h : s.token? = some t) :
    ∃ slice, s = .token t slice := by
  cases s with
  | token u slice =>
    cases h
    exact ⟨slice, rfl⟩
  | _ => cases h

/-- Each token stands behind the pieces with the tokens before it. -/
theorem exists_token {ss : List Segment} {i : Nat} {t : Token} (h : (tokens ss)[i]? = some t) :
    ∃ before slice behind, ss = before ++ .token t slice :: behind ∧
      (tokens before).length = i := by
  induction ss generalizing i with
  | nil => simp at h
  | cons s ss ih =>
    rw [tokens_cons] at h
    cases shown : s.token? with
    | none =>
      obtain ⟨before, slice, behind, rfl, rfl⟩ := ih (by simpa [shown] using h)
      exact ⟨s :: before, slice, behind, rfl, by simp [shown]⟩
    | some u =>
      obtain ⟨slice, rfl⟩ := token?_eq_some shown
      cases i with
      | zero =>
        obtain rfl : u = t := by simpa [token?] using h
        exact ⟨[], slice, ss, rfl, rfl⟩
      | succ i =>
        obtain ⟨before, slice', behind, rfl, rfl⟩ := ih (by simpa [token?] using h)
        exact ⟨.token u slice :: before, slice', behind, rfl, by simp [token?]⟩

theorem FitAll.mem {ss : List Segment} {behind : List Char} (h : FitAll ss behind) {s : Segment}
    (hs : s ∈ ss) : ∃ cs, s.Fits cs := by
  induction ss with
  | nil => cases hs
  | cons x xs ih =>
    obtain rfl | hs := List.mem_cons.1 hs
    · exact ⟨_, h.1⟩
    · exact ih h.2 hs

/-- Holds for the pieces that may have a line end in them: long comments, strings, and line ends. -/
def HasLines : Segment → Prop
  | longComment _ => True
  | token t slice => t.kind = .literal .string ∨ t.kind = .mark .newline ∧ slice = ['\n']
  | _ => False

/-- Holds for the pieces that may have any character in them: comments and strings. -/
def IsFree : Segment → Prop
  | lineComment _ | longComment _ => True
  | token t _ => t.kind = .literal .string
  | _ => False

theorem Fits.hasLines {s : Segment} {behind : List Char} (h : s.Fits behind)
    (line : '\n' ∈ s.chars) : s.HasLines := by
  cases s with
  | blank c =>
    obtain rfl : '\n' = c := by simpa [chars] using line
    revert h
    simp [Fits]
  | lineComment body => exact h.1 (by simpa [chars] using line)
  | longComment body => trivial
  | token t slice =>
    by_cases string : t.kind = .literal .string
    · exact .inl string
    · by_cases newline : t.kind = .mark .newline
      · exact .inr ⟨newline, h.lineEnd newline⟩
      · exact absurd rfl (h.plain string newline _ line).1

theorem Fits.isFree {s : Segment} {behind : List Char} (h : s.Fits behind)
    (null : '\x00' ∈ s.chars) : s.IsFree := by
  cases s with
  | blank c =>
    obtain rfl : '\x00' = c := by simpa [chars] using null
    revert h
    simp [Fits]
  | lineComment body => trivial
  | longComment body => trivial
  | token t slice =>
    by_cases string : t.kind = .literal .string
    · exact string
    · by_cases newline : t.kind = .mark .newline
      · have only : slice = ['\n'] := h.lineEnd newline
        simp [chars, only] at null
      · exact absurd rfl (h.plain string newline _ null).2

end Segment

open Segment

/-- A mark at the start of the text behind a comment's body is not the first one if the body has
one. -/
theorem mark_infix_cons {c : Char} {body : List Char}
    (h : mark <:+: c :: body ++ ['=', '=']) :
    mark <+: c :: (body ++ mark) ∨ mark <:+: body ++ ['=', '='] := by
  rw [List.cons_append, List.infix_cons_iff] at h
  refine h.imp_left fun start => ?_
  have longer : c :: (body ++ ['=', '=']) <+: c :: (body ++ mark) :=
    List.cons_prefix_cons.2 ⟨rfl, (List.prefix_append_right_inj _).2 ⟨['='], rfl⟩⟩
  exact start.trans longer

namespace Trivia

/-- What is read in a mode, before the text `rest`: pieces without a token, the body of a line
comment, or the rest of a long comment and the pieces behind it. -/
def Mode.Reads (taken rest : List Char) : Mode → Prop
  | between => ∃ ss, tokens ss = [] ∧ taken = text ss ∧ FitAll ss rest
  | line => '\n' ∉ taken ∧ (rest = [] ∨ rest.head? = some '\n')
  | long _ => ∃ body ss, tokens ss = [] ∧ taken = body ++ mark ++ text ss ∧
      ¬ mark <:+: body ++ ['=', '='] ∧ FitAll ss rest

/-- The trivia that are read are taken from the front of the text, in their mode: the characters in
hand come before those that the rest of the reading takes. -/
theorem readFrom_spec {mode : Mode} {n m : Nat} {cs : List Char}
    (h : readFrom mode n cs = ⟨m, none⟩) :
    ∃ taken rest, cs = taken ++ rest ∧ m = n + taken.length ∧ mode.Reads taken rest := by
  fun_induction readFrom mode n cs
  case case1 n =>
    cases h
    exact ⟨[], [], rfl, rfl, [], rfl, rfl, trivial⟩
  case case2 n =>
    cases h
    exact ⟨[], [], rfl, rfl, by simp, .inl rfl⟩
  case case3 => cases h
  case case4 n cs ih =>
    obtain ⟨taken, rest, rfl, rfl, body, ss, none, rfl, first, fit⟩ := ih h
    refine ⟨mark ++ (body ++ mark ++ text ss), rest, rfl, ?_, .longComment body :: ss, none, ?_,
      first, fit⟩
    · simp only [List.length_append, mark, List.length_cons, List.length_nil]; omega
    · simp [chars]
  case case5 n cs ih =>
    obtain ⟨taken, rest, rfl, rfl, line, stop⟩ := ih h
    exact ⟨'=' :: '=' :: '=' :: taken, rest, rfl, by simp only [List.length_cons]; omega,
      by simpa using line, stop⟩
  case case6 n cs opened ih =>
    obtain ⟨taken, rest, rfl, rfl, ss, none, rfl, fit⟩ := ih h
    refine ⟨mark ++ text ss, rest, rfl, ?_, [], ss, none, rfl, ?_, fit⟩
    · simp only [List.length_append, mark, List.length_cons, List.length_nil]; omega
    · intro h
      have := h.length_le
      simp [mark] at this
  case case7 n c cs _ blank ih =>
    obtain ⟨taken, rest, rfl, rfl, ss, none, rfl, fit⟩ := ih h
    refine ⟨c :: text ss, rest, rfl, by simp only [List.length_cons]; omega, .blank c :: ss, none,
      rfl, ?_, fit⟩
    simpa [isBlank, Fits, or_assoc] using blank
  case case8 n cs _ _ ih =>
    obtain ⟨taken, rest, rfl, rfl, line, stop⟩ := ih h
    refine ⟨'#' :: taken, rest, rfl, by simp only [List.length_cons]; omega, [.lineComment taken],
      rfl, by simp [chars], ⟨line, by simpa using stop⟩, trivial⟩
  case case9 n c cs _ _ _ =>
    cases h
    exact ⟨[], c :: cs, rfl, rfl, [], rfl, rfl, trivial⟩
  case case10 n cs _ =>
    cases h
    exact ⟨[], '\n' :: cs, rfl, rfl, by simp, .inr rfl⟩
  case case11 n c cs _ other ih =>
    obtain ⟨taken, rest, rfl, rfl, line, stop⟩ := ih h
    exact ⟨c :: taken, rest, rfl, by simp only [List.length_cons]; omega,
      by simp [line, Ne.symm other], stop⟩
  case case12 n c cs noMark opened ih =>
    obtain ⟨taken, rest, rfl, rfl, body, ss, none, rfl, first, fit⟩ := ih h
    refine ⟨c :: (body ++ mark ++ text ss), rest, rfl, by simp only [List.length_cons]; omega,
      c :: body, ss, none, rfl, fun found => ?_, fit⟩
    obtain start | found := mark_infix_cons found
    · obtain ⟨more, same⟩ := start
      obtain ⟨first, second⟩ := List.cons.inj same
      refine (noMark (more ++ text ss ++ rest) first.symm ?_).elim
      rw [← second]
      simp
    · exact first found

/-- The trivia at the start of a text are blanks and comments, if no comment is left open. -/
theorem read_spec {cs : List Char} (h : (read cs).unclosed = none) :
    ∃ ss rest, tokens ss = [] ∧ cs = text ss ++ rest ∧ (read cs).length = (text ss).length ∧
      FitAll ss rest := by
  have whole : readFrom .between 0 cs = ⟨(read cs).length, none⟩ := by
    rw [← h]; rfl
  obtain ⟨taken, rest, rfl, length, ss, none, rfl, fit⟩ := readFrom_spec whole
  exact ⟨ss, rest, none, rfl, by omega, fit⟩

end Trivia
end AresSyntax
