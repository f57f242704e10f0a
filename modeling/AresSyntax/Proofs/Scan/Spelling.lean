import Mathlib.Data.List.TakeWhile
import AresSyntax.Proofs.Scan.Joining

/-!
Tokens written out with blanks between them. Every lexeme that a text can have has a spelling from
which it is read again, whatever stands behind a blank.

* `Lexeme.spelling`, `Lexeme.Genuine`: how a lexeme is written, and which lexemes texts have;
* `Lexeme.Restored`, `Lexeme.Genuine.restored`: a lexeme is read again from its spelling;
* `Lexeme.Spelt`, `Lexeme.spelt_of_read`: characters that are read as a lexeme and nothing more;
* `spellAll`, `tokenize_spelt`, `tokenize_spellAll`: the text of some lexemes, and its tokens.
-/
namespace AresSyntax
namespace Lexeme

/-- The contents of a string with a backslash before every double quote and backslash. -/
def escaped : List Char → List Char
  | [] => []
  | c :: cs => if c = '"' ∨ c = '\\' then '\\' :: c :: escaped cs else c :: escaped cs

/-- How a lexeme is written: a string between double quotes, and anything else as it is shown. -/
def spelling (l : Lexeme) : List Char :=
  if l.kind = .literal .string then '"' :: (escaped l.text.toList ++ ['"']) else l.text.toList

/-- Holds for the lexemes of the tokens that texts have. -/
def Genuine (l : Lexeme) : Prop :=
  ∃ text file i t, outcomes text file i = .ok t ∧ t.lexeme = l

/-- Holds for lexemes that are all that is read from their spelling. -/
def Restored (l : Lexeme) : Prop := read l.spelling = ⟨l.spelling.length, .ok l⟩

/-- The characters are read as the lexeme, and all of them are. -/
def Spelt (cs : List Char) (l : Lexeme) : Prop := read cs = ⟨cs.length, .ok l⟩

theorem quotationFrom_escaped (n : Nat) (contents cs : List Char) :
    quotationFrom '"' n contents (escaped cs ++ ['"']) =
      string (contents.reverse ++ cs) (n + (escaped cs).length + 1) := by
  induction cs generalizing n contents with
  | nil => simp [escaped, quotationFrom]
  | cons c cs ih =>
    rw [escaped]
    split
    · rename_i special
      have found : escapes.lookup c = some c := by
        obtain rfl | rfl := special <;> rfl
      rw [List.cons_append, List.cons_append, quotationFrom.eq_def]
      simp only [show ('\\' : Char) ≠ '"' by decide, if_false, if_true, found, ih,
        List.reverse_cons, List.append_assoc, List.cons_append, List.nil_append, List.length_cons]
      congr 1
      omega
    · rename_i plain
      obtain ⟨noQuote, noBackslash⟩ := not_or.1 plain
      rw [List.cons_append, quotationFrom.eq_def]
      simp only [noQuote, noBackslash, if_false, ih, List.reverse_cons, List.append_assoc,
        List.cons_append, List.nil_append, List.length_cons]
      congr 1
      omega

/-- A string literal has its contents for its text and its value. -/
theorem quotationFrom_literal {q : Char} {n : Nat} {contents cs : List Char} {l : Lexeme}
    (h : (quotationFrom q n contents cs).result = .ok l) :
    ∃ text, l = ⟨.literal .string, text, some (.string text)⟩ := by
  fun_induction quotationFrom q n contents cs
  case case2 =>
    cases h
    exact ⟨_, rfl⟩
  case case4 ih | case7 ih | case11 ih => exact ih h
  all_goals cases h

theorem restored_of_quotation {q : Char} {n : Nat} {contents cs : List Char} {l : Lexeme}
    (h : (quotationFrom q n contents cs).result = .ok l) : l.Restored := by
  obtain ⟨text, rfl⟩ := quotationFrom_literal h
  have spelled : spelling ⟨.literal .string, text, some (.string text)⟩ =
      '"' :: (escaped text.toList ++ ['"']) := rfl
  have length : ('"' :: (escaped text.toList ++ ['"'])).length =
      1 + (escaped text.toList).length + 1 := by
    simp only [List.length_cons, List.length_append, List.length_nil]
    omega
  have quoted : read ('"' :: (escaped text.toList ++ ['"'])) =
      quotationFrom '"' 1 [] (escaped text.toList ++ ['"']) := rfl
  rw [Restored, spelled, length, quoted, quotationFrom_escaped]
  simp [string]

/-- Anything else is restored if it is read from the characters that it shows. -/
theorem restored_of_spelled {text : List Char} {kind : Kind} {value : Option Value}
    (notString : kind ≠ .literal .string) (same : read text = .spelled text kind value) :
    Restored ⟨kind, String.ofList text, value⟩ := by
  have shown : spelling ⟨kind, String.ofList text, value⟩ = text := by
    rw [spelling, if_neg notString]
    exact String.toList_ofList
  rw [Restored, shown, same, Reading.spelled]

theorem takeWhile_run {p : Char → Bool} (cs : List Char) :
    (cs.takeWhile p).takeWhile p = cs.takeWhile p ∧ (cs.takeWhile p).dropWhile p = [] := by
  have all : ∀ c ∈ cs.takeWhile p, p c = true := List.all_eq_true.1 List.all_takeWhile
  exact ⟨List.takeWhile_eq_self_iff.2 all, List.dropWhile_eq_nil_iff.2 all⟩

theorem restored_of_word {c : Char} {cs : List Char} {l : Lexeme} (line : c ≠ '\n')
    (letter : isLetter c) (h : (word (c :: cs)).result = .ok l) : l.Restored := by
  cases h
  refine restored_of_spelled ?_ ?_
  · cases found : reservedWords.lookup ((c :: cs).takeWhile isLetter) with
    | none => simp
    | some k =>
      obtain ⟨l₁, l₂, table, -⟩ := List.lookup_eq_some_iff.1 found
      have entry : ((c :: cs).takeWhile isLetter, k) ∈ reservedWords := table ▸ by simp
      exact (reservedWords_kinds _ entry).1
  · have run := (takeWhile_run (p := isLetter) (c :: cs)).1
    have first : (c :: cs).takeWhile isLetter = c :: cs.takeWhile isLetter :=
      List.takeWhile_cons_of_pos letter
    have again : read (c :: cs.takeWhile isLetter) = word (c :: cs.takeWhile isLetter) := by
      simp only [read, line, letter, if_true, if_false]
    rw [first] at run ⊢
    rw [again, word, run]

/-- The integers are restored that are read from their digits. -/
theorem restored_of_integer {text : List Char} {value : Nat} {l : Lexeme}
    (same : read text = integer text value) (h : (integer text value).result = .ok l) :
    l.Restored := by
  unfold integer at same h
  split at h
  · rename_i small
    cases h
    rw [if_pos small] at same
    exact restored_of_spelled (by simp) same
  · cases h

theorem restored_of_decimal {digits : List Char} {l : Lexeme}
    (same : read digits = decimal digits) (h : (decimal digits).result = .ok l) : l.Restored := by
  unfold decimal at same h
  split at h
  · cases h
  · rename_i few
    rw [if_neg few] at same
    exact restored_of_integer same h

/-- What is read as a number is restored: no digit is the mark of a hexadecimal number, and neither
is the point. -/
theorem restored_of_number {c : Char} {cs : List Char} {l : Lexeme} (digit : c.isDigit)
    (h : (number (c :: cs)).result = .ok l) : l.Restored := by
  obtain ⟨run, behind⟩ := takeWhile_run (p := Char.isDigit) (c :: cs)
  have first : (c :: cs).takeWhile Char.isDigit = c :: cs.takeWhile Char.isDigit :=
    List.takeWhile_cons_of_pos digit
  have inside : ∀ d ∈ cs.takeWhile Char.isDigit, d.isDigit :=
    List.all_eq_true.1 List.all_takeWhile
  have noHex (tail : List Char) (head : ∀ d ∈ tail.head?, d = '.') :
      (cs.takeWhile Char.isDigit ++ tail).head? ≠ some 'x' ∧
        (cs.takeWhile Char.isDigit ++ tail).head? ≠ some 'X' := by
    cases digits : cs.takeWhile Char.isDigit with
    | nil => constructor <;> exact fun same => absurd (head _ same) (by decide)
    | cons d ds =>
      have isDigit : d.isDigit := inside d (digits ▸ List.mem_cons_self)
      constructor <;>
      · intro same
        obtain rfl := Option.some.inj same
        exact absurd isDigit (by decide)
  have whole : read ((c :: cs).takeWhile Char.isDigit) =
      decimal ((c :: cs).takeWhile Char.isDigit) := by
    have noHex := noHex [] nofun
    rw [List.append_nil] at noHex
    rw [first] at run behind ⊢
    rw [read_of_digit digit noHex, number, run, behind]
  unfold number at h
  split at h
  · rename_i rest _
    split at h
    · exact restored_of_decimal whole h
    · have float : read ((c :: cs).takeWhile Char.isDigit ++ '.' :: rest.takeWhile Char.isDigit) =
          float ((c :: cs).takeWhile Char.isDigit) (rest.takeWhile Char.isDigit) := by
        have part := (takeWhile_run (p := Char.isDigit) rest).1
        have noPoint : (rest.takeWhile Char.isDigit).head? ≠ some '.' := by
          intro same
          have isDigit := List.all_eq_true.1 List.all_takeWhile _ (List.mem_of_mem_head? same)
          exact absurd isDigit (by decide)
        have point : Char.isDigit '.' = false := rfl
        rw [first] at run behind ⊢
        rw [List.cons_append, read_of_digit digit (noHex _ (by simp)),
          ← List.cons_append, number, takeWhile_append_break point, dropWhile_append_break point,
          run, behind]
        simp only [List.nil_append, noPoint, if_false, part]
      cases h
      exact restored_of_spelled (by simp) float
  · exact restored_of_decimal whole h

theorem restored_of_hexadecimal {x : Char} {cs : List Char} {l : Lexeme} (hx : x = 'x' ∨ x = 'X')
    (h : (hexadecimal ('0' :: x :: cs)).result = .ok l) : l.Restored := by
  have again : read ('0' :: x :: cs.takeWhile Text.isHexDigit) =
      hexadecimal ('0' :: x :: cs.takeWhile Text.isHexDigit) := by
    obtain rfl | rfl := hx <;> rfl
  unfold hexadecimal at again h
  simp only [List.drop_succ_cons, List.drop_zero, List.take_succ_cons, List.take_zero,
    takeWhile_run] at again h
  split at h
  · cases h
  · rename_i some
    rw [if_neg some] at again
    exact restored_of_integer again h

/-- What is read from the start is all there is to read, if it has the same length. -/
theorem read_of_shown {cs : List Char} {l : Lexeme}
    (shown : (read cs).length = cs.length ∧ (read cs).result.toOption = some l) :
    read cs = ⟨cs.length, .ok l⟩ := by
  obtain ⟨length, result⟩ := shown
  cases found : read cs with
  | mk n result' =>
    rw [found] at length result
    subst length
    cases result' with
    | error flaw => cases result
    | ok l =>
      obtain rfl := Option.some.inj result
      rfl

/-- A symbol is read from its own spelling: no longer one is tried with success before it. -/
theorem read_symbol : ∀ s ∈ symbols, read s.1 = .spelled s.1 s.2 none := by
  have shown : ∀ s ∈ symbols, (read s.1).length = s.1.length ∧
      (read s.1).result.toOption = some ⟨s.2, String.ofList s.1, none⟩ := by decide +kernel
  intro s hs
  exact read_of_shown (shown s hs)

/-- What was read is restored. -/
theorem restored_of_read {cs : List Char} {l : Lexeme} (h : (read cs).result = .ok l) :
    l.Restored := by
  unfold read at h
  split at h
  · cases h
    rfl
  · rename_i c cs
    split at h
    · cases h
      rfl
    rename_i line
    split at h
    · rename_i letter
      exact restored_of_word line letter h
    split at h
    · rename_i hex
      obtain ⟨rfl, hex⟩ := hex
      obtain ⟨x, cs, rfl⟩ := List.exists_cons_of_ne_nil (l := cs) (by rintro rfl; simp at hex)
      exact restored_of_hexadecimal (by simpa using hex) h
    split at h
    · rename_i digit
      exact restored_of_number digit h
    split at h
    · exact restored_of_quotation h
    split at h
    · rename_i text kind found
      have entry := (symbol?_spec found).2
      cases h
      exact restored_of_spelled (symbols_kinds _ entry).1 (read_symbol _ entry)
    · cases h

theorem Genuine.restored {l : Lexeme} (h : l.Genuine) : l.Restored := by
  obtain ⟨text, file, i, t, found, rfl⟩ := h
  obtain ⟨start, l, -, -, -, result, -, rfl, -⟩ := Cursor.read_eq_ok (Prod.ext found rfl)
  exact restored_of_read result

theorem breaks_blank : Breaks ' ' where
  letter := rfl
  digit := rfl
  hex := rfl
  symbol := by
    have absent : ' ' ∉ symbols.flatMap (·.1) := by decide
    intro s hs blank
    exact absent (List.mem_flatMap.2 ⟨s, hs, blank⟩)

/-- The end of a string is known without what stands behind it. -/
theorem quotationFrom_take {q : Char} {n : Nat} {contents cs : List Char} {l : Lexeme}
    (h : (quotationFrom q n contents cs).result = .ok l) :
    ∃ body rest, cs = body ++ rest ∧
      quotationFrom q n contents body = ⟨n + body.length, .ok l⟩ := by
  fun_induction quotationFrom q n contents cs
  case case2 n contents cs =>
    cases h
    refine ⟨[q], cs, rfl, ?_⟩
    rw [quotationFrom, if_pos rfl]
    rfl
  case case4 n contents e cs d found other ih =>
    obtain ⟨body, rest, rfl, same⟩ := ih h
    refine ⟨'\\' :: e :: body, rest, rfl, ?_⟩
    rw [quotationFrom.eq_def]
    simp only [other, if_false, if_true, found, same, List.length_cons]
    congr 1
    omega
  case case7 n contents high isHigh low cs isLow other found ih =>
    obtain ⟨body, rest, rfl, same⟩ := ih h
    refine ⟨'\\' :: 'x' :: high :: low :: body, rest, rfl, ?_⟩
    rw [quotationFrom.eq_def]
    simp only [other, if_false, if_true, found, isHigh, isLow, same, List.length_cons]
    congr 1
    omega
  case case11 n contents c cs other plain ih =>
    obtain ⟨body, rest, rfl, same⟩ := ih h
    refine ⟨c :: body, rest, rfl, ?_⟩
    rw [quotationFrom.eq_def]
    simp only [other, plain, if_false, same, List.length_cons]
    congr 1
    omega
  all_goals cases h

/-- A string is read from its quotes and what stands between them. -/
theorem spelt_of_quotation {q : Char} {cs : List Char} {l : Lexeme} (quote : q = '"' ∨ q = '\'')
    (h : (quotation q cs).result = .ok l) :
    Spelt ((q :: cs).take (quotation q cs).length) l := by
  obtain ⟨body, rest, rfl, same⟩ := quotationFrom_take h
  have result : (quotationFrom q 1 [] body).result = .ok l := by rw [same]
  have whole : quotation q (body ++ rest) = ⟨1 + body.length, .ok l⟩ :=
    (quotationFrom_append result rest).trans same
  have quoted : read (q :: body) = quotation q body := by
    obtain rfl | rfl := quote <;> rfl
  rw [whole, Nat.add_comm, List.take_succ_cons, List.take_left, Spelt, quoted, quotation, same,
    List.length_cons, Nat.add_comm]

/-- What is read uses up characters that are read as the same and nothing more. -/
theorem spelt_of_read {cs : List Char} {l : Lexeme} (h : (read cs).result = .ok l) :
    Spelt (cs.take (read cs).length) l := by
  obtain ⟨slice, rest, rfl, length, spells⟩ := read_faithful cs l h
  by_cases isString : l.kind = .literal .string
  · obtain ⟨q, body, quote, rfl⟩ := spells.quoted isString
    have quoted : read (q :: body ++ [q] ++ rest) = quotation q (body ++ [q] ++ rest) := by
      obtain rfl | rfl := quote <;> rfl
    rw [quoted] at h ⊢
    exact spelt_of_quotation quote h
  · have shown : slice = l.spelling := by
      rw [spelling, if_neg isString]
      exact spells.shown isString
    rw [length, List.take_left, shown]
    exact restored_of_read h

section
variable {cs : List Char} {l : Lexeme}

/-- Only the end of a text is written without a character. -/
theorem Spelt.ne_nil (h : Spelt cs l) (other : l.kind ≠ .endOfText) : cs ≠ [] := by
  rintro rfl
  cases h
  exact other rfl

/-- A lexeme is read in front of a blank. -/
theorem Spelt.read_blank (h : Spelt cs l) (other : l.kind ≠ .endOfText) (ys : List Char) :
    read (cs ++ ' ' :: ys) = ⟨cs.length, .ok l⟩ := by
  have result : (read cs).result = .ok l := by rw [h]
  exact (read_append breaks_blank result (h.ne_nil other) ys).trans h

end

/-- Blanks and the sign of a line comment start no lexeme. -/
theorem read_trivia {c : Char} (trivia : Trivia.isBlank c ∨ c = '#') (cs : List Char) :
    read (c :: cs) = .fail (.unrecognized c) 0 0 := by
  obtain ⟨line, letter, digit, double, single, absent⟩ : c ≠ '\n' ∧ isLetter c = false ∧
      c.isDigit = false ∧ c ≠ '"' ∧ c ≠ '\'' ∧ c ∉ symbols.flatMap (·.1) := by
    simp only [Trivia.isBlank, Bool.or_eq_true, beq_iff_eq] at trivia
    obtain ((rfl | rfl) | rfl) | rfl := trivia <;> decide
  have zero : c ≠ '0' := by
    rintro rfl
    exact absurd digit (by decide)
  have unknown : symbol? (c :: cs) = none := by
    refine Option.eq_none_iff_forall_ne_some.2 fun s found => absent ?_
    obtain ⟨start, entry⟩ := symbol?_spec found
    obtain ⟨d, ds, text⟩ := List.exists_cons_of_ne_nil (symbols_kinds _ entry).2.2.2
    refine List.mem_flatMap.2 ⟨s, entry, ?_⟩
    rw [text, List.cons_prefix_cons] at start
    exact text ▸ start.1 ▸ List.mem_cons_self
  simp only [read, line, letter, digit, zero, double, single, unknown, false_and, or_self,
    if_false, Bool.false_eq_true]

/-- No lexeme is spelled like trivia. -/
theorem Spelt.trivia {spelling : List Char} {l : Lexeme} (h : Spelt spelling l)
    (other : l.kind ≠ .endOfText) : ∃ c cs, spelling = c :: cs ∧ Trivia.isBlank c = false ∧
      c ≠ '#' ∧ ∀ cs', c = '=' → cs = '=' :: '=' :: cs' → False := by
  obtain ⟨c, cs, spelled⟩ := List.exists_cons_of_ne_nil (h.ne_nil other)
  rw [Spelt, spelled] at h
  have fails (unknown : read (c :: cs) = .fail (.unrecognized c) 0 0) : False := by
    rw [h] at unknown
    cases unknown
  refine ⟨c, cs, spelled, ?_, ?_, ?_⟩
  · rw [← Bool.not_eq_true]
    intro blank
    exact fails (read_trivia (.inl blank) cs)
  · rintro rfl
    exact fails (read_trivia (.inr rfl) cs)
  · rintro cs' rfl rfl
    have two : read ('=' :: '=' :: '=' :: cs') = .spelled ['=', '='] (.binary .equal) none := by
      set_option maxRecDepth 2000 in rfl
    rw [h] at two
    cases two

end Lexeme

/-- The text of some lexemes, with a blank between any two of them. -/
def spellAll (ls : List Lexeme) : List Char := [' '].intercalate (ls.map Lexeme.spelling)

/-- Only a blank may stand before what is spelled. -/
def Pad (pad : List Char) : Prop := pad = [] ∨ pad = [' ']

/-- A blank before a lexeme is all of its trivia. -/
theorem Trivia.read_pad {pad spelling tail : List Char} (hp : Pad pad) {l : Lexeme}
    (h : Lexeme.Spelt spelling l) (other : l.kind ≠ .endOfText)
    (stops : tail = [] ∨ ∃ ys, tail = ' ' :: ys) :
    Trivia.read (pad ++ (spelling ++ tail)) = ⟨pad.length, none⟩ := by
  obtain ⟨c, cs, spelled, noBlank, noSign, noMark⟩ := h.trivia other
  have behind (n : Nat) : readFrom .between n (spelling ++ tail) = ⟨n, none⟩ := by
    rw [spelled, List.cons_append]
    refine readFrom_stop noBlank noSign ?_
    obtain rfl | ⟨ys, rfl⟩ := stops
    · rwa [List.append_nil]
    · exact no_mark_append (by decide) noMark
  obtain rfl | rfl := hp
  · exact behind 0
  · rw [read, List.cons_append, readFrom]
    · exact behind 1
    · intro cs' equal
      cases equal

namespace Cursor

/-- A lexeme is read from its spelling if a blank or nothing stands behind it. -/
theorem read_spelling {c : Cursor} {pad spelling tail : List Char} (hp : Pad pad) {l : Lexeme}
    (h : Lexeme.Spelt spelling l) (other : l.kind ≠ .endOfText)
    (stops : tail = [] ∨ ∃ ys, tail = ' ' :: ys) (rest : c.rest = pad ++ (spelling ++ tail)) :
    ∃ t c', c.read = (.ok t, c') ∧ t.lexeme = l ∧ c'.rest = tail := by
  have trivia : Trivia.read c.rest = ⟨pad.length, none⟩ := rest ▸ Trivia.read_pad hp h other stops
  have start : (c.skip pad.length).rest = spelling ++ tail := by
    rw [rest_skip, rest, List.drop_left]
  have lexeme : Lexeme.read (c.skip pad.length).rest = ⟨spelling.length, .ok l⟩ := by
    rw [start]
    obtain rfl | ⟨ys, rfl⟩ := stops
    · rw [List.append_nil]
      exact h
    · exact h.read_blank other ys
  refine ⟨⟨l.kind, l.text, l.value, (c.skip pad.length).location⟩,
    (c.skip pad.length).skip spelling.length, ?_, rfl, ?_⟩
  · rw [read, trivia]
    simp only [lexeme, outcome]
  · rw [rest_skip, start, List.drop_left]

theorem read_pad {c : Cursor} (hp : Pad c.rest) :
    ∃ location c', c.read = (.ok (.atEnd location), c') := by
  obtain ⟨file, position, rest⟩ := c
  obtain none | blank := hp
  · cases none
    exact ⟨_, _, rfl⟩
  · cases blank
    exact ⟨_, _, rfl⟩

/-- Lexemes are read from what they are spelt with, with blanks between. Behind a lexeme stand the
others behind a blank, or nothing if there are none. -/
theorem take_spelt {c : Cursor} {pad : List Char} (hp : Pad pad) {ps : List (List Char × Lexeme)}
    (h : ∀ p ∈ ps, Lexeme.Spelt p.1 p.2 ∧ p.2.kind ≠ .endOfText)
    (rest : c.rest = pad ++ [' '].intercalate (ps.map Prod.fst)) {n : Nat}
    (room : c.rest.length < n) : ∃ ts location,
      (c.take n).1 = .ok (ts ++ [.atEnd location]) ∧ ts.map Token.lexeme = ps.map Prod.snd := by
  induction ps generalizing c pad n with
  | nil =>
    obtain ⟨n, rfl⟩ := Nat.exists_eq_succ_of_ne_zero (Nat.ne_zero_of_lt room)
    rw [List.map_nil, List.intercalate_nil, List.append_nil] at rest
    obtain ⟨location, c', read⟩ := read_pad (c := c) (rest ▸ hp)
    exact ⟨[], location, take_eq_ok.2 ⟨_, c', read, .inl ⟨rfl, rfl⟩⟩, rfl⟩
  | cons p ps ih =>
    obtain ⟨n, rfl⟩ := Nat.exists_eq_succ_of_ne_zero (Nat.ne_zero_of_lt room)
    obtain ⟨spelt, other⟩ := h p List.mem_cons_self
    obtain ⟨pad', hp', stops, spelled⟩ : ∃ pad', Pad pad' ∧
        (pad' ++ [' '].intercalate (ps.map Prod.fst) = [] ∨
          ∃ ys, pad' ++ [' '].intercalate (ps.map Prod.fst) = ' ' :: ys) ∧
        [' '].intercalate ((p :: ps).map Prod.fst) =
          p.1 ++ (pad' ++ [' '].intercalate (ps.map Prod.fst)) := by
      cases ps with
      | nil => exact ⟨[], .inl rfl, .inl rfl, by simp⟩
      | cons q ps => exact ⟨[' '], .inr rfl, .inr ⟨_, rfl⟩, by simp⟩
    obtain ⟨t, c', read, same, left⟩ := read_spelling hp spelt other stops (spelled ▸ rest)
    have other' : t.kind ≠ .endOfText := by
      intro last
      exact other (same ▸ last)
    have shorter := length_rest_of_read read other'
    obtain ⟨ts, location, taken, lexemes⟩ :=
      ih hp' (fun q hq => h q (List.mem_cons_of_mem _ hq)) left (n := n) (by omega)
    refine ⟨t :: ts, location, take_eq_ok.2 ⟨t, c', read, .inr ⟨other', _, taken, rfl⟩⟩, ?_⟩
    rw [List.map_cons, List.map_cons, same, lexemes]

end Cursor

/-- The tokens of characters that lexemes are spelt with have these lexemes. -/
theorem tokenize_spelt {ps : List (List Char × Lexeme)}
    (h : ∀ p ∈ ps, Lexeme.Spelt p.1 p.2 ∧ p.2.kind ≠ .endOfText) (file : String) : ∃ ts location,
      tokenize (String.ofList ([' '].intercalate (ps.map Prod.fst))) file =
        .ok (ts ++ [.atEnd location]) ∧ ts.map Token.lexeme = ps.map Prod.snd :=
  Cursor.take_spelt (.inl rfl) h String.toList_ofList (Nat.lt_succ_self _)

/-- The tokens of spelled lexemes have these lexemes. -/
theorem tokenize_spellAll {ls : List Lexeme} (h : ∀ l ∈ ls, l.Restored ∧ l.kind ≠ .endOfText)
    (file : String) : ∃ ts location,
      tokenize (String.ofList (spellAll ls)) file = .ok (ts ++ [.atEnd location]) ∧
        ts.map Token.lexeme = ls := by
  have spelt : ∀ p ∈ ls.map fun l => (l.spelling, l),
      Lexeme.Spelt p.1 p.2 ∧ p.2.kind ≠ .endOfText :=
    List.forall_mem_map.2 h
  obtain ⟨ts, location, read, same⟩ := tokenize_spelt spelt file
  rw [List.map_map] at read same
  exact ⟨ts, location, read, same.trans (List.map_id ls)⟩

end AresSyntax
