import AresSyntax.Proofs.Scan.Longest

/-!
A text with a carriage return before every line end. What is read of it is the same, since a
carriage return is a blank between tokens and part of the comment in a comment.

* `Text.addReturns`: the text with the carriage returns;
* `Lexeme.Prescribed.addReturns`: the lexeme at the start of a text does not change;
* `Trivia.read_addReturns`: trivia end where they ended, or behind the return at a line end;
* `Token.Level`: tokens in the same line, and in the same column unless they are line ends;
* `Cursor.Returned`, `Cursor.Returned.read`: one token after the other is read as such.
-/
namespace AresSyntax
namespace Text

/-- Puts a carriage return before every line end. -/
def addReturns (cs : List Char) : List Char :=
  cs.flatMap fun c => if c = '\n' then ['\r', '\n'] else [c]

variable {c : Char} {cs xs ys : List Char}

@[simp] theorem addReturns_nil : addReturns [] = [] := rfl

@[simp] theorem addReturns_line (cs : List Char) :
    addReturns ('\n' :: cs) = '\r' :: '\n' :: addReturns cs := rfl

theorem addReturns_cons (other : c ≠ '\n') (cs : List Char) :
    addReturns (c :: cs) = c :: addReturns cs := by
  simp [addReturns, other]

@[simp] theorem addReturns_append (xs ys : List Char) :
    addReturns (xs ++ ys) = addReturns xs ++ addReturns ys := List.flatMap_append

theorem addReturns_plain (h : '\n' ∉ cs) : addReturns cs = cs := by
  induction cs with
  | nil => rfl
  | cons c cs ih =>
    rw [List.mem_cons, not_or] at h
    rw [addReturns_cons (Ne.symm h.1), ih h.2]

/-- What stands at the start of the text without a return stood there before. -/
theorem prefix_of_addReturns (plain : '\r' ∉ xs) (h : xs <+: addReturns ys) : xs <+: ys := by
  induction ys generalizing xs with
  | nil => exact h
  | cons y ys ih =>
    cases xs with
    | nil => exact List.nil_prefix
    | cons x xs =>
      rw [List.mem_cons, not_or] at plain
      by_cases line : y = '\n'
      · subst line
        rw [addReturns_line, List.cons_prefix_cons] at h
        exact absurd h.1.symm plain.1
      · rw [addReturns_cons line, List.cons_prefix_cons] at h
        exact List.cons_prefix_cons.2 ⟨h.1, ih plain.2 h.2⟩

theorem head?_of_addReturns (other : c ≠ '\r') (h : (addReturns cs).head? = some c) :
    cs.head? = some c := by
  have start : [c] <+: addReturns cs := List.singleton_prefix_iff_head?_eq_some.2 h
  exact List.singleton_prefix_iff_head?_eq_some.1
    (prefix_of_addReturns (by simpa using other.symm) start)

end Text

open Text Lexeme

namespace Lexeme

variable {p : Char → Bool} {run behind slice cs : List Char} {l : Lexeme}

theorem Run.addReturns (h : Run p run behind) (outside : p '\r' = false) :
    Run p run (addReturns behind) where
  inside := h.inside
  stop c hc := by
    by_cases blank : c = '\r'
    · simp [blank, outside]
    · exact h.stop c (head?_of_addReturns blank hc)

theorem StartsHex.of_addReturns (h : StartsHex (Text.addReturns cs)) : StartsHex cs := by
  obtain ⟨zero, mark⟩ := h
  have first := head?_of_addReturns (by decide) zero
  obtain ⟨rest, rfl⟩ := List.head?_eq_some_iff.1 first
  rw [addReturns_cons (by decide)] at mark
  exact ⟨rfl, mark.imp (head?_of_addReturns (by decide)) (head?_of_addReturns (by decide))⟩

theorem startsPart_addReturns : StartsPart (Text.addReturns cs) ↔ StartsPart cs := by
  constructor
  · rintro ⟨point, single⟩
    have first := head?_of_addReturns (by decide) point
    obtain ⟨rest, rfl⟩ := List.head?_eq_some_iff.1 first
    refine ⟨rfl, fun second => single ?_⟩
    obtain ⟨rest, rfl⟩ := List.head?_eq_some_iff.1 second
    rfl
  · rintro ⟨point, single⟩
    obtain ⟨rest, rfl⟩ := List.head?_eq_some_iff.1 point
    exact ⟨rfl, fun second => single (head?_of_addReturns (by decide) second)⟩

/-- A lexeme is prescribed as before if no return is put into it. -/
theorem Prescribed.addReturns (h : Prescribed slice behind l) (plain : '\n' ∉ slice) :
    Prescribed slice (addReturns behind) l := by
  have whole : slice ++ Text.addReturns behind = Text.addReturns (slice ++ behind) := by
    rw [addReturns_append, addReturns_plain plain]
  cases h with
  | ending => exact .ending
  | lineEnd => exact absurd List.mem_cons_self plain
  | word nonempty letters known => exact .word nonempty (letters.addReturns rfl) known
  | hexadecimal mark nonempty digits fits =>
    exact .hexadecimal mark nonempty (digits.addReturns rfl) fits
  | integer nonempty digits noHex noPart few fits =>
    refine .integer nonempty (digits.addReturns rfl) (fun hex => noHex ?_)
      (fun part => noPart (startsPart_addReturns.1 part)) few fits
    rw [whole] at hex
    exact hex.of_addReturns
  | @float _ part _ nonempty digits point more =>
    refine .float nonempty digits ?_ (more.addReturns rfl)
    have inside : '\n' ∉ '.' :: part := fun line => plain (List.mem_append_right _ line)
    have joined : Text.addReturns ('.' :: (part ++ behind)) =
        '.' :: (part ++ Text.addReturns behind) := by
      rw [← List.cons_append, addReturns_append, addReturns_plain inside, List.cons_append]
    exact joined ▸ startsPart_addReturns.2 point
  | string quote items => exact .string quote items
  | symbol longest =>
    have none : '\r' ∉ symbols.flatMap (·.1) := by decide
    refine .symbol ⟨longest.entry, List.prefix_append _ _, fun s entry start => ?_⟩
    have noReturn : '\r' ∉ s.1 := fun blank => none (List.mem_flatMap.2 ⟨s, entry, blank⟩)
    exact longest.longest s entry (prefix_of_addReturns noReturn (whole ▸ start))

theorem Prescribed.spells (h : Prescribed slice behind l) : Spells slice l := by
  have reads := h.reads
  obtain ⟨slice', behind', cut, length, spells⟩ :=
    read_faithful (slice ++ behind) l (congrArg Reading.result reads)
  have size : slice.length = slice'.length := (congrArg Reading.length reads).symm.trans length
  rwa [(List.append_inj cut size).1]

/-- A line end is prescribed where there is one, and as nothing else. -/
theorem Prescribed.eq_lineEnd (h : Prescribed slice behind l) (line : l.kind = .mark .newline) :
    slice = ['\n'] ∧ l = ⟨.mark .newline, "\n", none⟩ := by
  have only := h.spells.lineEnd line
  subst only
  exact ⟨rfl, (Prescribed.lineEnd.unique h rfl).2⟩

end Lexeme

namespace Trivia

/-- The same mode, for a long comment that starts at another place. -/
def Mode.opening : Mode → Nat → Mode
  | .between, _ => .between
  | .line, _ => .line
  | .long _, opened => .long opened

/-- The return that is put before a text which starts with a line end. -/
def returnBefore (rest : List Char) : List Char := if rest.head? = some '\n' then ['\r'] else []

theorem no_mark_addReturns {c : Char} {cs : List Char}
    (h : ∀ cs', c = '=' → cs = '=' :: '=' :: cs' → False) :
    ∀ cs', c = '=' → addReturns cs = '=' :: '=' :: cs' → False := by
  intro cs' first same
  have mark : ['=', '='] <+: addReturns cs := ⟨cs', same.symm⟩
  obtain ⟨behind, rfl⟩ := prefix_of_addReturns (by decide) mark
  exact h behind first rfl

/-- Holds if trivia take some characters of the text, from `n` to `m`, and what becomes of these
with returns, from `k` on, together with the return that is put behind them. -/
def TakenTo (cs : List Char) (n m k : Nat) (trivia : Trivia) : Prop :=
  ∃ taken rest, cs = taken ++ rest ∧ m = n + taken.length ∧
    trivia = ⟨k + (addReturns taken ++ returnBefore rest).length, none⟩

section
variable {c : Char} {cs : List Char} {n m k : Nat} {trivia : Trivia}

theorem takenTo_stop (h : trivia = ⟨k + (returnBefore cs).length, none⟩) :
    TakenTo cs n n k trivia :=
  ⟨[], cs, rfl, rfl, h⟩

theorem TakenTo.cons (h : TakenTo cs (n + 1) m (k + 1) trivia) (other : c ≠ '\n') :
    TakenTo (c :: cs) n m k trivia := by
  obtain ⟨taken, rest, rfl, rfl, rfl⟩ := h
  refine ⟨c :: taken, rest, rfl, by simp only [List.length_cons]; omega, ?_⟩
  simp only [addReturns_cons other, List.cons_append, List.length_cons, Trivia.mk.injEq, and_true]
  omega

theorem TakenTo.line (h : TakenTo cs (n + 1) m (k + 2) trivia) :
    TakenTo ('\n' :: cs) n m k trivia := by
  obtain ⟨taken, rest, rfl, rfl, rfl⟩ := h
  refine ⟨'\n' :: taken, rest, rfl, by simp only [List.length_cons]; omega, ?_⟩
  simp only [addReturns_line, List.cons_append, List.length_cons, Trivia.mk.injEq, and_true]
  omega

theorem TakenTo.mark (h : TakenTo cs (n + 3) m (k + 3) trivia) :
    TakenTo ('=' :: '=' :: '=' :: cs) n m k trivia :=
  ((h.cons (by decide)).cons (by decide)).cons (by decide)

/-- Trivia go on up to where they went on before, and over a return at a line end there: a mark and
any other character but the line end are read as before. -/
theorem readFrom_addReturns {mode : Mode} (h : readFrom mode n cs = ⟨m, none⟩) (opened k : Nat) :
    TakenTo cs n m k (readFrom (mode.opening opened) k (addReturns cs)) := by
  fun_induction readFrom mode n cs generalizing opened k
  case case1 | case2 =>
    cases h
    exact takenTo_stop rfl
  case case3 => cases h
  case case4 ih => exact (ih h k (k + 3)).mark
  case case5 ih | case6 ih => exact (ih h opened (k + 3)).mark
  case case7 n c cs noMark blank ih =>
    have other : c ≠ '\n' := by
      rintro rfl
      cases blank
    rw [addReturns_cons other, Mode.opening, readFrom]
    · simp only [blank, if_true]
      exact (ih h opened (k + 1)).cons other
    · exact no_mark_addReturns noMark
  case case8 n cs noMark blank ih =>
    rw [addReturns_cons (by decide), Mode.opening, readFrom]
    · simp only [blank, Bool.false_eq_true, if_false, if_true]
      exact (ih h opened (k + 1)).cons (by decide)
    · exact no_mark_addReturns noMark
  case case9 n c cs noMark blank sign =>
    cases h
    refine takenTo_stop ?_
    by_cases line : c = '\n'
    · subst line
      rfl
    · rw [addReturns_cons line, Mode.opening, readFrom]
      · simp [blank, sign, returnBefore, line]
      · exact no_mark_addReturns noMark
  case case10 n cs noMark =>
    cases h
    exact takenTo_stop rfl
  case case11 n c cs noMark other ih =>
    rw [addReturns_cons other, Mode.opening, readFrom]
    · simp only [other, if_false]
      exact (ih h opened (k + 1)).cons other
    · exact no_mark_addReturns noMark
  case case12 n c cs noMark opened' ih =>
    by_cases line : c = '\n'
    · subst line
      exact (ih h opened (k + 2)).line
    · rw [addReturns_cons line, Mode.opening, readFrom]
      · exact (ih h opened (k + 1)).cons line
      · exact no_mark_addReturns noMark

/-- The trivia at the start of a text, if no comment is left open. -/
theorem read_addReturns (h : (read cs).unclosed = none) :
    TakenTo cs 0 (read cs).length 0 (read (addReturns cs)) := by
  have whole : readFrom .between 0 cs = ⟨(read cs).length, none⟩ := by
    rw [← h]
    rfl
  exact readFrom_addReturns whole 0 0

end
end Trivia

/-- Holds for places in the same line and column, whatever their offsets are. -/
def Position.Level (p p' : Position) : Prop := p'.line = p.line ∧ p'.column = p.column

theorem Position.Level.past_addReturns {p p' : Position} (h : p.Level p') (cs : List Char) :
    (p.past cs).Level (p'.past (addReturns cs)) := by
  induction cs generalizing p p' with
  | nil => exact h
  | cons c cs ih =>
    obtain ⟨line, column⟩ := h
    by_cases isLine : c = '\n'
    · subst isLine
      exact ih ⟨congrArg (· + 1) line, rfl⟩
    · rw [addReturns_cons isLine, past_cons, past_cons]
      refine ih ?_
      simp only [Level, after, isLine, if_false, line, column, and_self]

/-- No return is put before a lexeme without a line end. -/
theorem Trivia.returnBefore_plain {slice behind : List Char} {l : Lexeme}
    (h : Prescribed slice behind l) (plain : '\n' ∉ slice) :
    returnBefore (slice ++ behind) = [] := by
  unfold returnBefore
  split
  · rename_i first
    obtain ⟨cs, same⟩ := List.head?_eq_some_iff.1 first
    have line : Prescribed ['\n'] cs _ := .lineEnd
    have only : ['\n'] = slice := (h.unique line same).1
    exact absurd (only ▸ List.mem_cons_self) plain
  · rfl

/-- Holds for tokens that differ in nothing but their offsets, and in their columns if they are line
ends. -/
structure Token.Level (t t' : Token) : Prop where
  lexeme : t'.lexeme = t.lexeme
  file : t'.location.file = t.location.file
  line : t'.location.line = t.location.line
  column : t.kind ≠ .mark .newline → t'.location.column = t.location.column

namespace Cursor

/-- Holds for a cursor in the same line and column, before the same text with returns. -/
structure Returned (c c' : Cursor) : Prop where
  file : c'.file = c.file
  level : c.position.Level c'.position
  rest : c'.rest = addReturns c.rest

variable {c c' : Cursor} {slice behind : List Char} {l : Lexeme}

theorem Returned.skip (h : Returned c c') {taken rest : List Char} (cut : c.rest = taken ++ rest) :
    Returned (c.skip taken.length) (c'.skip (addReturns taken).length) := by
  have cut' : c'.rest = addReturns taken ++ addReturns rest := by
    rw [h.rest, cut, addReturns_append]
  refine ⟨h.file, ?_, ?_⟩
  · simp only [Cursor.skip, cut, cut', List.take_left]
    exact h.level.past_addReturns taken
  · simp only [Cursor.skip, cut, cut', List.drop_left]

theorem read_of_prescribed {start : Cursor} (closed : (Trivia.read c.rest).unclosed = none)
    (same : c.skip (Trivia.read c.rest).length = start) (cut : start.rest = slice ++ behind)
    (prescribed : Prescribed slice behind l) :
    c.read = (.ok ⟨l.kind, l.text, l.value, start.location⟩, start.skip slice.length) := by
  rw [read_of_closed closed same, cut, prescribed.reads]
  rfl

/-- A return takes no line. -/
theorem skip_return {cs : List Char} (h : c.rest = '\r' :: cs) :
    (c.skip 1).rest = cs ∧ (c.skip 1).position.line = c.position.line := by
  simp only [Cursor.skip, h]
  exact ⟨rfl, rfl⟩

/-- A token is read from the text with returns at the same place, unless it is a line end, if no
return is put into it. -/
theorem Returned.read (h : Returned c c') (closed : (Trivia.read c.rest).unclosed = none)
    (cut : (c.skip (Trivia.read c.rest).length).rest = slice ++ behind)
    (prescribed : Prescribed slice behind l) (plain : l.kind ≠ .mark .newline → '\n' ∉ slice) :
    ∃ t t', c.read.1 = .ok t ∧ c'.read.1 = .ok t' ∧ t.Level t' ∧
      Returned c.read.2 c'.read.2 := by
  obtain ⟨taken, rest, whole, length, trivia⟩ := Trivia.read_addReturns closed
  rw [Nat.zero_add] at length
  rw [Nat.zero_add, List.length_append, ← h.rest] at trivia
  have closed' : (Trivia.read c'.rest).unclosed = none := by rw [trivia]
  have start := h.skip whole
  have read := read_of_prescribed closed rfl cut prescribed
  obtain rfl : rest = slice ++ behind := by rw [← cut, length, rest_skip, whole, List.drop_left]
  rw [length] at cut read
  by_cases line : l.kind = .mark .newline
  · obtain ⟨rfl, rfl⟩ := prescribed.eq_lineEnd line
    have same : c'.skip (Trivia.read c'.rest).length =
        (c'.skip (addReturns taken).length).skip 1 := by
      rw [skip_skip, trivia]
      rfl
    have left : (c'.skip (addReturns taken).length).rest = '\r' :: '\n' :: addReturns behind := by
      rw [start.rest, cut]
      rfl
    obtain ⟨cut', place⟩ := skip_return left
    have read' := read_of_prescribed closed' same cut' .lineEnd
    have next := start.skip cut
    rw [show (addReturns ['\n']).length = 1 + 1 from rfl, ← skip_skip] at next
    rw [read, read']
    exact ⟨_, _, rfl, rfl, ⟨rfl, start.file, place.trans start.level.1,
      fun other => absurd rfl other⟩, next⟩
  · have noLine := plain line
    have same : c'.skip (Trivia.read c'.rest).length = c'.skip (addReturns taken).length := by
      rw [trivia, Trivia.returnBefore_plain prescribed noLine]
      rfl
    have cut' : (c'.skip (addReturns taken).length).rest = slice ++ addReturns behind := by
      rw [start.rest, cut, addReturns_append, addReturns_plain noLine]
    have read' := read_of_prescribed closed' same cut' (prescribed.addReturns noLine)
    rw [read, read']
    refine ⟨_, _, rfl, rfl, ⟨rfl, start.file, start.level.1, fun _ => start.level.2⟩, ?_⟩
    have next := start.skip cut
    rwa [addReturns_plain noLine] at next

end Cursor
end AresSyntax
