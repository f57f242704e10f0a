import AresSyntax.Proofs.Scan.Outcomes
import AresSyntax.Proofs.Script.Recasting

/-!
Two texts with a line end between them. What is read in the first one does not change, since no
token goes on over a line end, and the second one is read as if alone, only further down.

* `Trivia.read_append`: trivia before a line end;
* `Lexeme.Breaks`, `Lexeme.read_append`: lexemes before a character that they do not go on over;
* `Cursor.read_down`: what is read does not depend on the line and the offset of the start;
* `outcomes_join`: the outcomes of the joined text;
* `tokenize_join`: its tokens, or the fault of the second text.
-/
namespace AresSyntax

section
variable {xs ys : List Char} {d : Char}

theorem takeWhile_append_break {p : Char → Bool} (stop : p d = false) :
    (xs ++ d :: ys).takeWhile p = xs.takeWhile p := by
  rw [List.takeWhile_append]
  split
  · rw [List.takeWhile_cons_of_neg (by simp [stop]), List.append_nil]
    rename_i all
    exact (List.IsPrefix.eq_of_length (List.takeWhile_prefix p) all).symm
  · rfl

theorem dropWhile_append_break {p : Char → Bool} (stop : p d = false) :
    (xs ++ d :: ys).dropWhile p = xs.dropWhile p ++ d :: ys := by
  rw [List.dropWhile_append]
  split
  · rename_i none
    rw [List.dropWhile_cons_of_neg (by simp [stop]), List.isEmpty_iff.1 none, List.nil_append]
  · rfl

theorem head?_append_break {c : Char} (other : c ≠ d) :
    (xs ++ d :: ys).head? = some c ↔ xs.head? = some c := by
  cases xs with
  | nil => simp [other.symm]
  | cons x xs => simp

end

namespace Trivia
theorem no_mark_append {c d : Char} {cs ys : List Char} (stop : d ≠ '=')
    (h : ∀ cs', c = '=' → cs = '=' :: '=' :: cs' → False) :
    ∀ cs', c = '=' → cs ++ d :: ys = '=' :: '=' :: cs' → False := by
  intro cs' first same
  match cs with
  | [] => exact stop (List.cons.inj same).1
  | [_] => exact stop (List.cons.inj (List.cons.inj same).2).1
  | a :: b :: cs =>
    simp only [List.cons_append, List.cons.injEq] at same
    obtain ⟨rfl, rfl, -⟩ := same
    exact h cs first rfl

/-- Trivia before a line end are read as those before the end of a text: a mark is found where it
was found before, and anything else goes by its first character. -/
theorem readFrom_append {mode : Mode} {n m : Nat} {cs : List Char}
    (h : readFrom mode n cs = ⟨m, none⟩) (ys : List Char) :
    readFrom mode n (cs ++ '\n' :: ys) = ⟨m, none⟩ := by
  fun_induction readFrom mode n cs
  case case1 | case2 => exact h
  case case3 => cases h
  case case4 ih | case5 ih | case6 ih => exact ih h
  case case7 n c cs noMark blank ih =>
    rw [List.cons_append, readFrom]
    · simpa only [blank, if_true] using ih h
    · exact no_mark_append (by decide) noMark
  case case8 n cs noMark blank ih =>
    rw [List.cons_append, readFrom]
    · simpa only [blank, Bool.false_eq_true, if_false, if_true] using ih h
    · exact no_mark_append (by decide) noMark
  case case9 n c cs noMark blank line =>
    rw [List.cons_append, readFrom]
    · simpa only [blank, line, Bool.false_eq_true, if_false] using h
    · exact no_mark_append (by decide) noMark
  case case10 n cs noMark =>
    rw [List.cons_append, readFrom]
    · simpa only [if_true] using h
    · exact no_mark_append (by decide) noMark
  case case11 n c cs noMark other ih =>
    rw [List.cons_append, readFrom]
    · simpa only [other, if_false] using ih h
    · exact no_mark_append (by decide) noMark
  case case12 noMark _ ih =>
    rw [List.cons_append, readFrom]
    · exact ih h
    · exact no_mark_append (by decide) noMark
/-- Trivia that are complete end before a line end. -/
theorem read_append {cs : List Char} (h : (read cs).unclosed = none) (ys : List Char) :
    read (cs ++ '\n' :: ys) = read cs := by
  have whole : readFrom .between 0 cs = ⟨(read cs).length, none⟩ := by
    rw [← h]
    rfl
  exact (readFrom_append whole ys).trans whole.symm

end Trivia

namespace Lexeme

/-- Holds for the characters that no lexeme goes on over, if it is not a string. -/
structure Breaks (d : Char) : Prop where
  letter : isLetter d = false
  digit : d.isDigit = false
  hex : Text.isHexDigit d = false
  symbol : ∀ s ∈ symbols, d ∉ s.1

theorem breaks_line : Breaks '\n' where
  letter := rfl
  digit := rfl
  hex := rfl
  symbol s hs line := absurd rfl (symbols_plain s hs _ line).1

variable {d : Char}

theorem Breaks.ne_symbol (hd : Breaks d) {c : Char} (h : ∃ s ∈ symbols, c ∈ s.1) : c ≠ d := by
  obtain ⟨s, hs, hc⟩ := h
  rintro rfl
  exact hd.symbol s hs hc

theorem Breaks.ne_letter (hd : Breaks d) {c : Char} (h : isLetter c) : c ≠ d := by
  rintro rfl
  exact absurd h (by simp [hd.letter])

theorem word_append (hd : Breaks d) (cs ys : List Char) : word (cs ++ d :: ys) = word cs := by
  simp only [word, takeWhile_append_break (p := isLetter) hd.letter]

theorem number_append (hd : Breaks d) (cs ys : List Char) :
    number (cs ++ d :: ys) = number cs := by
  have point : '.' ≠ d := hd.ne_symbol (by decide)
  have digits (xs : List Char) :
      (xs ++ d :: ys).takeWhile Char.isDigit = xs.takeWhile Char.isDigit :=
    takeWhile_append_break hd.digit
  have behind : (cs ++ d :: ys).dropWhile Char.isDigit =
      cs.dropWhile Char.isDigit ++ d :: ys := dropWhile_append_break hd.digit
  unfold number
  simp only [digits, behind]
  split
  · rename_i rest cut
    cases left : cs.dropWhile Char.isDigit with
    | nil =>
      rw [left] at cut
      exact absurd (List.cons.inj cut).1.symm point
    | cons c left' =>
      rw [left, List.cons_append] at cut
      obtain ⟨rfl, rfl⟩ := List.cons.inj cut
      simp only [head?_append_break point, digits]
  · rename_i other
    split
    · rename_i rest cut
      exact absurd (congrArg (· ++ d :: ys) cut) (other _)
    · rfl

theorem quotationFrom_append {q : Char} {n : Nat} {contents cs : List Char} {l : Lexeme}
    (h : (quotationFrom q n contents cs).result = .ok l) (ys : List Char) :
    quotationFrom q n contents (cs ++ ys) = quotationFrom q n contents cs := by
  fun_induction quotationFrom q n contents cs
  case case2 n contents cs =>
    rw [List.cons_append, quotationFrom.eq_def]
    simp only [if_true]
  case case4 n contents e cs d found other ih =>
    rw [quotationFrom.eq_def]
    simp only [List.cons_append, other, if_false, if_true, found]
    exact ih h
  case case7 n contents high isHigh low cs isLow other found ih =>
    rw [quotationFrom.eq_def]
    simp only [List.cons_append, other, if_false, if_true, found, isHigh, isLow]
    exact ih h
  case case11 n contents c cs other plain ih =>
    rw [List.cons_append, quotationFrom.eq_def]
    simp only [other, plain, if_false]
    exact ih h
  all_goals cases h

/-- A symbol of the length `n + 1` at the start of a text. -/
def symbolOf? (cs : List Char) (n : Nat) : Option (List Char × Kind) :=
  symbols.find? fun s => s.1 == cs.take (n + 1)

theorem symbolOf?_append {cs ys : List Char} {n : Nat} (inside : n < cs.length) :
    symbolOf? (cs ++ ys) n = symbolOf? cs n := by
  simp only [symbolOf?, List.take_append_of_le_length (Nat.succ_le_of_lt inside)]

theorem symbolOf?_of_length_le {cs : List Char} {n : Nat} (beyond : cs.length ≤ n + 1) :
    symbolOf? cs n = symbols.find? fun s => s.1 == cs := by
  simp only [symbolOf?, List.take_of_length_le beyond]

/-- No symbol goes on over a break. -/
theorem symbolOf?_break (hd : Breaks d) {cs ys : List Char} {n : Nat} (beyond : cs.length ≤ n) :
    symbolOf? (cs ++ d :: ys) n = none := by
  refine List.find?_eq_none.2 fun s hs same => hd.symbol s hs ?_
  rw [beq_iff_eq.1 same, List.take_append, List.mem_append]
  have more : n + 1 - cs.length = n - cs.length + 1 := by omega
  exact .inr (by rw [more, List.take_succ_cons]; exact List.mem_cons_self)

/-- The longest symbol ends before a break. What is longer than the text before it is that whole
text, which is tried as well. -/
theorem findSome?_symbolOf?_append (hd : Breaks d) {cs : List Char} (some : cs ≠ [])
    (ys : List Char) (n : Nat) :
    (List.range n).reverse.findSome? (symbolOf? (cs ++ d :: ys)) =
      (List.range n).reverse.findSome? (symbolOf? cs) := by
  induction n with
  | zero => rfl
  | succ n ih =>
    simp only [List.range_succ, List.reverse_append, List.reverse_cons, List.reverse_nil,
      List.nil_append, List.cons_append, List.findSome?_cons, ih]
    by_cases inside : n < cs.length
    · rw [symbolOf?_append inside]
    · have beyond : cs.length ≤ n := Nat.le_of_not_lt inside
      rw [symbolOf?_break hd beyond]
      simp only
      cases found : symbolOf? cs n with
      | none => rfl
      | some s =>
        have positive := Nat.lt_of_lt_of_le (List.length_pos_iff.2 some) beyond
        obtain ⟨m, rfl⟩ : ∃ m, n = m + 1 := Nat.exists_eq_succ_of_ne_zero (Nat.ne_of_gt positive)
        simp only [List.range_succ, List.reverse_append, List.reverse_cons, List.reverse_nil,
          List.nil_append, List.cons_append, List.findSome?_cons]
        rw [symbolOf?_of_length_le (by omega)] at found
        rw [symbolOf?_of_length_le beyond, found]

theorem symbol?_append (hd : Breaks d) {cs : List Char} (some : cs ≠ []) (ys : List Char) :
    symbol? (cs ++ d :: ys) = symbol? cs :=
  findSome?_symbolOf?_append hd some ys longestSymbol

theorem hexadecimal_append (hd : Breaks d) (c x : Char) (cs ys : List Char) :
    hexadecimal (c :: x :: (cs ++ d :: ys)) = hexadecimal (c :: x :: cs) := by
  simp only [hexadecimal, List.cons_append, List.drop_succ_cons, List.drop_zero,
    List.take_succ_cons, List.take_zero, takeWhile_append_break (p := Text.isHexDigit) hd.hex]

/-- A lexeme does not go on over a break. -/
theorem read_append (hd : Breaks d) {cs : List Char} {l : Lexeme} (h : (read cs).result = .ok l)
    (some : cs ≠ []) (ys : List Char) : read (cs ++ d :: ys) = read cs := by
  obtain ⟨c, cs, rfl⟩ := List.exists_cons_of_ne_nil some
  have hex : (c = '0' ∧
      ((cs ++ d :: ys).head? = .some 'x' ∨ (cs ++ d :: ys).head? = .some 'X')) ↔
      (c = '0' ∧ (cs.head? = .some 'x' ∨ cs.head? = .some 'X')) := by
    rw [head?_append_break (hd.ne_letter rfl), head?_append_break (hd.ne_letter rfl)]
  have symbol := symbol?_append hd some ys
  have word := word_append hd (c :: cs) ys
  have number := number_append hd (c :: cs) ys
  simp only [List.cons_append] at symbol word number ⊢
  simp only [read, hex, symbol, word, number] at h ⊢
  split
  · rfl
  split
  · rfl
  split
  · rename_i isHex
    obtain ⟨x, cs, rfl⟩ := List.exists_cons_of_ne_nil (l := cs) (by rintro rfl; simp at isHex)
    exact hexadecimal_append hd c x cs ys
  split
  · rfl
  split
  · rename_i noLine noLetter noHex noDigit quote
    simp only [noLine, noLetter, noHex, noDigit, quote, if_true, if_false] at h
    exact quotationFrom_append h _
  · rfl
end Lexeme

/-- The place some lines further down, behind some more characters. -/
def Position.down (lines chars : Nat) (p : Position) : Position :=
  ⟨p.line + lines, p.column, p.offset + chars⟩

/-- Moves everything some lines down, behind some more characters. -/
def Recast.down (lines chars : Nat) : Recast where
  text _ s := s
  value _ v := v
  location l := ⟨l.toPosition.down lines chars, l.file⟩

section
variable {lines chars : Nat}

theorem Position.after_down (p : Position) (c : Char) :
    (p.down lines chars).after c = (p.after c).down lines chars := by
  unfold after down
  split <;> simp only [Position.mk.injEq, true_and] <;> omega

theorem Position.past_down (p : Position) (cs : List Char) :
    (p.down lines chars).past cs = (p.past cs).down lines chars := by
  induction cs generalizing p with
  | nil => rfl
  | cons c cs ih => rw [past_cons, after_down, ih, past_cons]

theorem Token.recast_down (t : Token) : t.recast (.down lines chars) =
    { t with location := ⟨t.location.toPosition.down lines chars, t.location.file⟩ } := by
  simp [Token.recast, Recast.down]

namespace Cursor

/-- The cursor before the same text some lines further down. -/
def down (lines chars : Nat) (c : Cursor) : Cursor :=
  { c with position := c.position.down lines chars }

theorem skip_down (c : Cursor) (n : Nat) :
    (c.down lines chars).skip n = (c.skip n).down lines chars := by
  simp only [skip, down, Position.past_down]

theorem outcome_down (c : Cursor) (r : Lexeme.Reading) :
    (c.down lines chars).outcome r = (c.outcome r).recast (.down lines chars) := by
  unfold outcome
  cases r.result with
  | ok l =>
    simp only [Outcome.recast, Token.recast_down]
    rfl
  | error e =>
    cases e with
    | error e offset =>
      simp only [skip_down]
      rfl
    | tooManyDigits count => rfl

/-- What is read does not depend on the line and the offset where a text starts. -/
theorem read_down (c : Cursor) : (c.down lines chars).read =
    (c.read.1.recast (.down lines chars), c.read.2.down lines chars) := by
  have same : (c.down lines chars).rest = c.rest := rfl
  unfold read
  simp only [same, skip_down]
  cases (Trivia.read c.rest).unclosed with
  | some opened => rfl
  | none =>
    have left (c : Cursor) : (c.down lines chars).rest = c.rest := rfl
    simp only [outcome_down, left]

theorem behind_down (c : Cursor) (i : Nat) :
    (c.down lines chars).behind i = (c.behind i).down lines chars := by
  induction i generalizing c with
  | zero => rfl
  | succ i ih => rw [behind_succ, read_down, ih, behind_succ]

end Cursor
end

namespace Cursor

/-- The cursor before a longer text. -/
def append (zs : List Char) (c : Cursor) : Cursor := { c with rest := c.rest ++ zs }

theorem skip_append {c : Cursor} {n : Nat} (inside : n ≤ c.rest.length) (zs : List Char) :
    (c.append zs).skip n = (c.skip n).append zs := by
  simp only [skip, append, List.take_append_of_le_length inside,
    List.drop_append_of_le_length inside]

end Cursor

/-- The token of a line end. -/
def Token.lineEnd (location : Location) : Token := ⟨.mark .newline, "\n", none, location⟩

@[simp] theorem Token.kind_lineEnd (location : Location) :
    (lineEnd location).kind = .mark .newline := rfl

@[simp] theorem Token.location_lineEnd (location : Location) :
    (lineEnd location).location = location := rfl

namespace Cursor

variable {c c' : Cursor} {t : Token}

/-- What is behind a reading of a token: trivia that are complete, and a lexeme behind them. -/
theorem read_eq_ok (h : c.read = (.ok t, c')) : ∃ start l, (Trivia.read c.rest).unclosed = none ∧
    (Trivia.read c.rest).length ≤ c.rest.length ∧ c.skip (Trivia.read c.rest).length = start ∧
    (Lexeme.read start.rest).result = .ok l ∧
    (Lexeme.read start.rest).length ≤ start.rest.length ∧
    t = ⟨l.kind, l.text, l.value, start.location⟩ ∧
    c' = start.skip (Lexeme.read start.rest).length := by
  cases open_ : (Trivia.read c.rest).unclosed with
  | some opened =>
    rw [read] at h
    simp [open_] at h
  | none =>
    obtain ⟨ss, rest, -, cut, length, -⟩ := Trivia.read_spec open_
    obtain ⟨start, same⟩ : ∃ start, c.skip (Trivia.read c.rest).length = start := ⟨_, rfl⟩
    rw [read_of_closed open_ same] at h
    obtain ⟨token, rfl⟩ := Prod.mk.inj h
    cases result : (Lexeme.read start.rest).result with
    | error flaw =>
      rw [outcome, result] at token
      cases flaw <;> cases token
    | ok l =>
      obtain ⟨slice, rest', spelled, size, -⟩ := Lexeme.read_faithful start.rest l result
      rw [outcome, result] at token
      cases token
      refine ⟨start, l, rfl, ?_, same, result, ?_, rfl, rfl⟩
      · rw [length, cut, List.length_append]
        exact Nat.le_add_right _ _
      · rw [size, spelled, List.length_append]
        exact Nat.le_add_right _ _

/-- A token before a line end is read as before the end of the text. -/
theorem read_append (h : c.read = (.ok t, c')) (other : t.kind ≠ .endOfText) (ys : List Char) :
    (c.append ('\n' :: ys)).read = (.ok t, c'.append ('\n' :: ys)) := by
  obtain ⟨start, l, closed, short, same, result, short', rfl, rfl⟩ := read_eq_ok h
  have some : start.rest ≠ [] := by
    intro none
    rw [none] at result
    cases result
    exact other rfl
  have trivia : Trivia.read (c.append ('\n' :: ys)).rest = Trivia.read c.rest :=
    Trivia.read_append closed ys
  have lexeme : Lexeme.read (start.append ('\n' :: ys)).rest = Lexeme.read start.rest :=
    Lexeme.read_append Lexeme.breaks_line result some ys
  have skipped : (c.append ('\n' :: ys)).skip (Trivia.read (c.append ('\n' :: ys)).rest).length =
      start.append ('\n' :: ys) := by rw [trivia, skip_append short, same]
  rw [read_of_closed (trivia ▸ closed) skipped, lexeme, skip_append short', outcome, result]
  rfl

/-- Where the text ended, the line end is read. -/
theorem read_append_end (h : c.read = (.ok t, c')) (last : t.kind = .endOfText) (ys : List Char) :
    (c.append ('\n' :: ys)).read = (.ok (.lineEnd t.location),
      ⟨c.file, (c.position.past c.rest).after '\n', ys⟩) := by
  obtain ⟨start, l, closed, short, same, result, -, rfl, rfl⟩ := read_eq_ok h
  have none : start.rest = [] := Lexeme.eq_nil_of_read_ending result last
  have all : (Trivia.read c.rest).length = c.rest.length := by
    have left : c.rest.drop (Trivia.read c.rest).length = [] := by rw [← rest_skip, same, none]
    exact Nat.le_antisymm short (List.drop_eq_nil_iff.1 left)
  have trivia : Trivia.read (c.append ('\n' :: ys)).rest = Trivia.read c.rest :=
    Trivia.read_append closed ys
  have skipped : (c.append ('\n' :: ys)).skip (Trivia.read (c.append ('\n' :: ys)).rest).length =
      start.append ('\n' :: ys) := by rw [trivia, skip_append short, same]
  have left : (start.append ('\n' :: ys)).rest = '\n' :: ys := by
    simp only [append, none, List.nil_append]
  rw [read_of_closed (trivia ▸ closed) skipped, left]
  rw [all] at same
  subst same
  have line : Lexeme.read ('\n' :: ys) = .spelled ['\n'] (.mark .newline) Option.none := rfl
  rw [line]
  simp only [skip, append, List.take_length, List.drop_length, List.nil_append]
  rfl

/-- The place behind all that a cursor has still to read. -/
def finish (c : Cursor) : Position := c.position.past c.rest

theorem finish_skip (c : Cursor) (n : Nat) : (c.skip n).finish = c.finish := by
  rw [finish, finish, skip, ← Position.past_append, List.take_append_drop]

theorem finish_read (h : c.read = (.ok t, c')) : c'.finish = c.finish ∧ c'.file = c.file := by
  obtain ⟨start, l, -, -, rfl, -, -, -, rfl⟩ := read_eq_ok h
  exact ⟨by rw [finish_skip, finish_skip], rfl⟩

theorem behind_add (c : Cursor) (i j : Nat) : c.behind (i + j) = (c.behind i).behind j := by
  induction i generalizing c with
  | zero => rw [Nat.zero_add]; rfl
  | succ i ih => rw [Nat.add_right_comm, behind_succ, ih, behind_succ]

/-- In front of a line end all tokens are read but the end token, whose place the line end takes. -/
theorem take_append {n : Nat} {us : List Token} (room : c.rest.length < n)
    (h : (c.take n).1 = .ok us) (ys : List Char) : ∃ ts e, us = ts ++ [e] ∧ e.kind = .endOfText ∧
      (∀ t ∈ ts, t.kind ≠ .endOfText) ∧
      (∀ i t, ts[i]? = some t → ((c.append ('\n' :: ys)).behind i).read.1 = .ok t) ∧
      ((c.append ('\n' :: ys)).behind ts.length).read =
        (.ok (.lineEnd e.location), ⟨c.file, c.finish.after '\n', ys⟩) := by
  induction n generalizing c us with
  | zero => exact absurd room (Nat.not_lt_zero _)
  | succ n ih =>
    obtain ⟨t, c', read, ⟨last, rfl⟩ | ⟨other, us, taken, rfl⟩⟩ := take_eq_ok.1 h
    · exact ⟨[], t, rfl, last, by simp, by simp, read_append_end read last ys⟩
    · have less := length_rest_of_read read other
      obtain ⟨ts, e, rfl, last, others, tokens, line⟩ := ih (by omega) taken
      have first := read_append read other ys
      obtain ⟨finish, file⟩ := finish_read read
      refine ⟨t :: ts, e, rfl, last, ?_, ?_, ?_⟩
      · intro u hu
        obtain rfl | hu := List.mem_cons.1 hu
        · exact other
        · exact others u hu
      · intro i u hu
        cases i with
        | zero =>
          obtain rfl : t = u := by simpa using hu
          exact congrArg Prod.fst first
        | succ i =>
          rw [behind_succ, first]
          exact tokens i u (by simpa using hu)
      · rw [List.length_cons, behind_succ, first, line, finish, file]

end Cursor

theorem Position.line_past (p : Position) (cs : List Char) :
    (p.past cs).line = p.line + cs.count '\n' := by
  induction cs generalizing p with
  | nil => simp
  | cons c cs ih =>
    rw [past_cons, ih, after, List.count_cons]
    by_cases line : c = '\n'
    · subst line
      simp only [if_true, beq_self_eq_true]
      omega
    · simp [line]

/-- Moves everything behind a text and a line end. -/
def Recast.below (text : String) : Recast := .down (1 + text.toList.count '\n') (text.length + 1)

theorem Position.finish_after_line (text : String) :
    (Position.start.past text.toList).after '\n' =
      Position.start.down (1 + text.toList.count '\n') (text.length + 1) := by
  have line := start.line_past text.toList
  have offset := start.offset_past text.toList
  have length : text.toList.length = text.length := String.length_toList
  simp only [start] at line offset
  simp only [after, down, start, if_true, line, offset, length, Position.mk.injEq]
  exact ⟨by omega, trivial, by omega⟩

/-- The outcomes of two texts with a line end between them are those of the first one without the
end token, the line end where that token was, and those of the second one moved down. -/
theorem outcomes_join {text file : String} {us : List Token} (h : tokenize text file = .ok us)
    (more : String) : ∃ ts e, us = ts ++ [e] ∧ e.kind = .endOfText ∧
      (∀ t ∈ ts, t.kind ≠ .endOfText) ∧
      (∀ i t, ts[i]? = some t → outcomes (text ++ "\n" ++ more) file i = .ok t) ∧
      outcomes (text ++ "\n" ++ more) file ts.length = .ok (.lineEnd e.location) ∧
      ∀ i, outcomes (text ++ "\n" ++ more) file (ts.length + 1 + i) =
        (outcomes more file i).recast (.below text) := by
  have whole : Cursor.ofText file (text ++ "\n" ++ more) =
      (Cursor.ofText file text).append ('\n' :: more.toList) := by
    simp [Cursor.ofText, Cursor.append]
  obtain ⟨ts, e, cut, last, others, tokens, line⟩ :=
    Cursor.take_append (Nat.lt_succ_self _) h more.toList
  refine ⟨ts, e, cut, last, others, ?_, ?_, fun i => ?_⟩
  · intro i t ht
    rw [outcomes, whole]
    exact tokens i t ht
  · rw [outcomes, whole, line]
  · have below : Cursor.mk file ((Cursor.ofText file text).finish.after '\n') more.toList =
        (Cursor.ofText file more).down (1 + text.toList.count '\n') (text.length + 1) :=
      congrArg (Cursor.mk file · more.toList) (Position.finish_after_line text)
    have behind : ((Cursor.ofText file text).append ('\n' :: more.toList)).behind
        (ts.length + 1 + i) = ((Cursor.ofText file more).behind i).down
          (1 + text.toList.count '\n') (text.length + 1) := by
      rw [Cursor.behind_add, Cursor.behind_add, Cursor.behind_succ, line, Cursor.behind]
      exact below ▸ Cursor.behind_down _ i
    rw [outcomes, whole, behind, Cursor.read_down]
    rfl

section
variable {text file more : String} {ts : List Token} {e : Token}
  (first : ∀ i t, ts[i]? = some t → outcomes (text ++ "\n" ++ more) file i = .ok t)
  (line : outcomes (text ++ "\n" ++ more) file ts.length = .ok (.lineEnd e.location))
  (below : ∀ i, outcomes (text ++ "\n" ++ more) file (ts.length + 1 + i) =
    (outcomes more file i).recast (.below text))
include first line below

/-- The tokens behind the line end are those of the second text, moved down. -/
theorem lists_join {vs : List Token} {last : Token}
    (others : ∀ t ∈ ts, t.kind ≠ .endOfText) (h : (Cursor.ofText file more).Lists vs last) :
    (Cursor.ofText file (text ++ "\n" ++ more)).Lists
      (ts ++ .lineEnd e.location :: recast (.below text) vs) (recast (.below text) last) where
  others := by
    intro t ht
    obtain ht | ht := List.mem_append.1 ht
    · exact others t ht
    obtain rfl | ht := List.mem_cons.1 ht
    · exact nofun
    · obtain ⟨v, hv, rfl⟩ := List.mem_map.1 ht
      exact h.others v hv
  last := h.last
  reads := by
    intro i t ht
    rw [List.append_assoc, List.getElem?_append, List.cons_append] at ht
    split at ht
    · exact first i t ht
    · rename_i beyond
      obtain ⟨j, rfl⟩ := Nat.exists_eq_add_of_le (Nat.le_of_not_lt beyond)
      rw [Nat.add_sub_cancel_left] at ht
      cases j with
      | zero =>
        cases ht
        exact line
      | succ j =>
        have whole : (recast (.below text) (vs ++ [last]))[j]? = some t := by
          rw [recast_append]
          exact ht
        obtain ⟨v, hv, rfl⟩ := Option.map_eq_some_iff.1 (List.getElem?_map.symm.trans whole)
        have moved := below j
        rw [show outcomes more file j = .ok v from h.reads j v hv] at moved
        have index : ts.length + (j + 1) = ts.length + 1 + j := by omega
        rw [index]
        exact moved

/-- The fault of the second text is found behind the line end. -/
theorem firstFault_join {k : Nat} {f : ReadFault} (h : (Cursor.ofText file more).FirstFault k f) :
    (Cursor.ofText file (text ++ "\n" ++ more)).FirstFault (ts.length + 1 + k)
      (f.recast (.below text)) := by
  constructor
  · intro j before
    obtain inside | rfl | behind := Nat.lt_trichotomy j ts.length
    · exact ⟨_, first j _ (List.getElem?_eq_getElem inside)⟩
    · exact ⟨_, line⟩
    · obtain ⟨i, rfl⟩ := Nat.exists_eq_add_of_le behind
      obtain ⟨t, read⟩ := h.1 i (by omega)
      have moved := below i
      rw [show outcomes more file i = .ok t from read] at moved
      exact ⟨_, moved⟩
  · have moved := below k
    rw [show outcomes more file k = .error f from h.2] at moved
    exact moved

end

theorem outcomes_atEnd {text file : String} {i : Nat} {t : Token}
    (h : outcomes text file i = .ok t) (last : t.kind = .endOfText) : t = .atEnd t.location := by
  obtain ⟨_, _, _, _, _, _, _, _, _, ends⟩ := Cursor.read_spec (Prod.ext h rfl)
  exact (ends last).2

/-- The tokens of two texts with a line end between them are those of the first one, the line end
in the place of its end token, and those of the second one as many characters and lines further
down. A fault of the second text is the fault of both, moved down likewise. -/
theorem tokenize_join {text file : String} {us : List Token} (h : tokenize text file = .ok us)
    (more : String) : ∃ ts location, us = ts ++ [.atEnd location] ∧
      tokenize (text ++ "\n" ++ more) file = match tokenize more file with
        | .ok vs => .ok (ts ++ .lineEnd location :: recast (.below text) vs)
        | .error f => .error (f.recast (.below text)) := by
  obtain ⟨ts, e, rfl, last, others, first, line, below⟩ := outcomes_join h more
  obtain ⟨ts', e', same, lists⟩ := tokenize_lists.1 h
  obtain ⟨rfl, rfl⟩ : ts = ts' ∧ e = e' := by simpa using List.append_inj' same rfl
  have ending : outcomes text file ts.length = .ok e := lists.reads _ _ (by simp)
  refine ⟨ts, e.location, ?_, ?_⟩
  · rw [← outcomes_atEnd ending last]
  cases read : tokenize more file with
  | ok vs =>
    obtain ⟨vs, v, rfl, lists⟩ := tokenize_lists.1 read
    refine tokenize_lists.2 ⟨_, _, ?_, lists_join first line below others lists⟩
    simp
  | error f =>
    obtain ⟨k, fault⟩ := tokenize_eq_error.1 read
    exact tokenize_eq_error.2 ⟨_, firstFault_join first line below fault⟩

/-- Digits at the end of the first text, which the line end does not change, and a comment at the
end of it, before a text with a string that is left open. -/
theorem tokenize_join_digits :
    (∃ ts, tokenize ("0" ++ "\n" ++ "x") "two.ares" = .ok ts ∧
      ts.map (·.location.offset) = [0, 1, 2, 3]) ∧
    tokenize ("a == # b" ++ "\n" ++ " 'c") "two.ares" =
      .error (.lexical .unterminatedString ⟨⟨2, 2, 10⟩, "two.ares"⟩) := by
  have digits : tokenize "0" "two.ares" = .ok [⟨.literal .integer, "0", some (.integer 0),
      ⟨⟨1, 1, 0⟩, "two.ares"⟩⟩, .atEnd ⟨⟨1, 2, 1⟩, "two.ares"⟩] := by decide +kernel
  have comment : tokenize "a == # b" "two.ares" = .ok [⟨.literal .ident, "a", none,
      ⟨⟨1, 1, 0⟩, "two.ares"⟩⟩, ⟨.binary .equal, "==", none, ⟨⟨1, 3, 2⟩, "two.ares"⟩⟩,
      .atEnd ⟨⟨1, 9, 8⟩, "two.ares"⟩] := by decide +kernel
  constructor
  · obtain ⟨ts, location, same, joined⟩ := tokenize_join digits "x"
    have alone : tokenize "x" "two.ares" = .ok [⟨.literal .ident, "x", none,
      ⟨⟨1, 1, 0⟩, "two.ares"⟩⟩, .atEnd ⟨⟨1, 2, 1⟩, "two.ares"⟩] := by decide +kernel
    rw [alone] at joined
    obtain ⟨rfl, same⟩ := List.append_inj' (show [_] ++ [_] = _ from same) rfl
    cases same
    exact ⟨_, joined, rfl⟩
  · obtain ⟨_, _, _, joined⟩ := tokenize_join comment " 'c"
    have alone : tokenize " 'c" "two.ares" =
      .error (.lexical .unterminatedString ⟨⟨1, 2, 1⟩, "two.ares"⟩) := by decide +kernel
    rw [alone] at joined
    exact joined

end AresSyntax
