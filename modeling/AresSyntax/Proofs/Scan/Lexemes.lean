import AresSyntax.Lexeme.Reading

/-!
The characters that a lexeme takes from the text it starts.

* `Lexeme.Spells`: how characters spell a lexeme;
* `Lexeme.read_faithful`: a lexeme is spelled by the characters that are used up;
* `Lexeme.read_progress`: characters are used up unless the first one starts no lexeme.
-/
namespace AresSyntax.Lexeme

/-- How characters spell a lexeme: a string stands between two equal quotes, and anything else is
shown as it is spelled. Only the end of a text has no characters, and only a line end is spelled by
one. -/
structure Spells (slice : List Char) (l : Lexeme) : Prop where
  quoted : l.kind = .literal .string →
    ∃ q body, (q = '"' ∨ q = '\'') ∧ slice = q :: body ++ [q]
  shown : l.kind ≠ .literal .string → slice = l.text.toList
  ending : slice = [] ↔ l.kind = .endOfText
  lineEnd : l.kind = .mark .newline → slice = ['\n']
  plain : l.kind ≠ .literal .string → l.kind ≠ .mark .newline → ∀ c ∈ slice, c ≠ '\n' ∧ c ≠ '\x00'

/-- A lexeme that is shown as it is spelled. -/
theorem Spells.spelled {text : List Char} {kind : Kind} {value : Option Value}
    (notString : kind ≠ .literal .string) (notEnd : kind ≠ .endOfText)
    (notLine : kind ≠ .mark .newline) (some : text ≠ [])
    (plain : ∀ c ∈ text, c ≠ '\n' ∧ c ≠ '\x00') :
    Spells text ⟨kind, String.ofList text, value⟩ where
  quoted h := absurd h notString
  shown _ := String.toList_ofList.symm
  ending := ⟨fun h => absurd h some, fun h => absurd h notEnd⟩
  lineEnd h := absurd h notLine
  plain _ _ := plain

/-- Holds for a reading of the text `cs` whose lexeme is spelled by the characters used up. -/
def Reading.Faithful (cs : List Char) (r : Reading) : Prop :=
  ∀ l, r.result = .ok l → ∃ slice rest, cs = slice ++ rest ∧ r.length = slice.length ∧
    Spells slice l

theorem Reading.faithful_fail {cs : List Char} {e : LexicalError} {offset length : Nat} :
    (Reading.fail e offset length).Faithful cs :=
  fun _ h => nomatch h

theorem Reading.faithful_spelled {cs text : List Char} {kind : Kind} {value : Option Value}
    (start : text <+: cs) (spells : Spells text ⟨kind, String.ofList text, value⟩) :
    (Reading.spelled text kind value).Faithful cs := by
  intro l h
  obtain ⟨rest, rfl⟩ := start
  cases h
  exact ⟨text, rest, rfl, rfl, spells⟩

/-- A run of characters of a class has no line end and no null character if the class has none. -/
theorem takeWhile_plain {p : Char → Bool} (line : p '\n' = false) (null : p '\x00' = false)
    (cs : List Char) : ∀ c ∈ cs.takeWhile p, c ≠ '\n' ∧ c ≠ '\x00' := by
  intro c hc
  have inside : p c = true := List.all_eq_true.1 List.all_takeWhile c hc
  constructor
  · rintro rfl; simp [line] at inside
  · rintro rfl; simp [null] at inside

theorem takeWhile_ne_nil {p : Char → Bool} {c : Char} (h : p c) (cs : List Char) :
    (c :: cs).takeWhile p ≠ [] := by
  simp [h]

theorem reservedWords_kinds : ∀ e ∈ reservedWords,
    e.2 ≠ .literal .string ∧ e.2 ≠ .endOfText ∧ e.2 ≠ .mark .newline := by
  decide

theorem symbols_kinds : ∀ e ∈ symbols, e.2 ≠ .literal .string ∧ e.2 ≠ .endOfText ∧
    e.2 ≠ .mark .newline ∧ e.1 ≠ [] := by
  decide

theorem symbols_plain : ∀ e ∈ symbols, ∀ c ∈ e.1, c ≠ '\n' ∧ c ≠ '\x00' := by
  have line : '\n' ∉ symbols.flatMap (·.1) := by decide
  have null : '\x00' ∉ symbols.flatMap (·.1) := by decide
  intro e he c hc
  constructor
  · rintro rfl
    exact line (List.mem_flatMap.2 ⟨e, he, hc⟩)
  · rintro rfl
    exact null (List.mem_flatMap.2 ⟨e, he, hc⟩)

theorem word_faithful {c : Char} {cs : List Char} (h : isLetter c) :
    (word (c :: cs)).Faithful (c :: cs) := by
  have some := takeWhile_ne_nil h cs
  have plain := takeWhile_plain (p := isLetter) (by decide) (by decide) (c :: cs)
  refine Reading.faithful_spelled (List.takeWhile_prefix _) ?_
  generalize (c :: cs).takeWhile isLetter = text at some plain
  cases hk : reservedWords.lookup text with
  | none => exact .spelled (by simp) (by simp) (by simp) some plain
  | some k =>
    obtain ⟨l₁, l₂, table, _⟩ := List.lookup_eq_some_iff.1 hk
    have entry : (text, k) ∈ reservedWords := table ▸ by simp
    obtain ⟨notString, notEnd, notLine⟩ := reservedWords_kinds _ entry
    exact .spelled notString notEnd notLine some plain

theorem integer_faithful {cs text : List Char} {value : Nat} (start : text <+: cs)
    (some : text ≠ []) (plain : ∀ c ∈ text, c ≠ '\n' ∧ c ≠ '\x00') :
    (integer text value).Faithful cs := by
  unfold integer
  split
  · exact Reading.faithful_spelled start (.spelled (by simp) (by simp) (by simp) some plain)
  · exact Reading.faithful_fail

theorem decimal_faithful {cs digits : List Char} (start : digits <+: cs) (some : digits ≠ [])
    (plain : ∀ c ∈ digits, c ≠ '\n' ∧ c ≠ '\x00') : (decimal digits).Faithful cs := by
  unfold decimal
  split
  · exact fun _ h => nomatch h
  · exact integer_faithful start some plain

theorem number_faithful {c : Char} {cs : List Char} (h : c.isDigit) :
    (number (c :: cs)).Faithful (c :: cs) := by
  have some := takeWhile_ne_nil h cs
  have plain := takeWhile_plain (p := Char.isDigit) (by decide) (by decide) (c :: cs)
  have start := List.takeWhile_prefix (l := c :: cs) Char.isDigit
  unfold number
  split
  · rename_i rest point
    split
    · exact decimal_faithful start some plain
    · have parts := List.takeWhile_append_dropWhile (p := Char.isDigit) (l := c :: cs)
      have plain' := takeWhile_plain (p := Char.isDigit) (by decide) (by decide) rest
      refine Reading.faithful_spelled ?_ (.spelled (by simp) (by simp) (by simp) (by simp) ?_)
      · rw [point] at parts
        have behind : '.' :: rest.takeWhile Char.isDigit <+: '.' :: rest :=
          List.cons_prefix_cons.2 ⟨rfl, List.takeWhile_prefix _⟩
        have run := (List.prefix_append_right_inj ((c :: cs).takeWhile Char.isDigit)).2 behind
        rwa [parts] at run
      · intro d hd
        simp only [List.mem_append, List.mem_cons] at hd
        obtain hd | rfl | hd := hd
        · exact plain d hd
        · decide
        · exact plain' d hd
  · exact decimal_faithful start some plain

theorem hexadecimal_faithful {x : Char} {cs : List Char} (hx : x = 'x' ∨ x = 'X') :
    (hexadecimal ('0' :: x :: cs)).Faithful ('0' :: x :: cs) := by
  have plain := takeWhile_plain (p := Text.isHexDigit) (by decide) (by decide) cs
  unfold hexadecimal
  simp only [List.drop_succ_cons, List.drop_zero, List.take_succ_cons, List.take_zero]
  split
  · exact Reading.faithful_fail
  · refine integer_faithful ?_ (by simp) ?_
    · exact List.cons_prefix_cons.2 ⟨rfl, List.cons_prefix_cons.2 ⟨rfl, List.takeWhile_prefix _⟩⟩
    · intro d hd
      simp only [List.cons_append, List.nil_append, List.mem_cons] at hd
      obtain rfl | rfl | hd := hd
      · decide
      · rcases hx with rfl | rfl <;> decide
      · exact plain d hd

/-- A string literal ends with its quote. -/
theorem quotationFrom_spec {q : Char} {n : Nat} {contents cs : List Char} {l : Lexeme}
    (h : (quotationFrom q n contents cs).result = .ok l) :
    l.kind = .literal .string ∧ ∃ body rest, cs = body ++ q :: rest ∧
      (quotationFrom q n contents cs).length = n + body.length + 1 := by
  fun_induction quotationFrom q n contents cs
  case case2 n contents cs =>
    cases h
    exact ⟨rfl, [], cs, rfl, rfl⟩
  case case4 n contents e cs d _ _ ih =>
    obtain ⟨kind, body, rest, rfl, length⟩ := ih h
    exact ⟨kind, '\\' :: e :: body, rest, rfl, by simp only [length, List.length_cons]; omega⟩
  case case7 n contents high _ low cs _ _ _ ih =>
    obtain ⟨kind, body, rest, rfl, length⟩ := ih h
    exact ⟨kind, '\\' :: 'x' :: high :: low :: body, rest, rfl,
      by simp only [length, List.length_cons]; omega⟩
  case case11 n contents c cs _ _ ih =>
    obtain ⟨kind, body, rest, rfl, length⟩ := ih h
    exact ⟨kind, c :: body, rest, rfl, by simp only [length, List.length_cons]; omega⟩
  all_goals cases h

theorem quotation_faithful {q : Char} {cs : List Char} (hq : q = '"' ∨ q = '\'') :
    (quotation q cs).Faithful (q :: cs) := by
  intro l h
  obtain ⟨kind, body, rest, rfl, length⟩ := quotationFrom_spec h
  refine ⟨q :: body ++ [q], rest, by simp, ?_, ?_⟩
  · rw [quotation, length]
    simp only [List.length_append, List.length_cons, List.length_nil]
    omega
  · exact {
      quoted := fun _ => ⟨q, body, hq, rfl⟩
      shown := fun h => absurd kind h
      ending := by simp [kind]
      lineEnd := fun h => by simp [kind] at h
      plain := fun h => absurd kind h }

theorem symbol?_spec {cs text : List Char} {kind : Kind} (h : symbol? cs = some (text, kind)) :
    text <+: cs ∧ (text, kind) ∈ symbols := by
  obtain ⟨n, _, found⟩ := List.exists_of_findSome?_eq_some h
  have same := List.find?_some found
  have entry := List.mem_of_find?_eq_some found
  have cut : text = cs.take (n + 1) := by simpa using same
  exact ⟨cut ▸ List.take_prefix _ _, entry⟩

/-- A lexeme is spelled by the characters that are used up. -/
theorem read_faithful (cs : List Char) : (read cs).Faithful cs := by
  unfold read
  split
  · intro l h
    cases h
    exact ⟨[], [], rfl, rfl, ⟨by simp, by simp, by simp, by simp, by simp⟩⟩
  · rename_i c cs
    split
    · rename_i line
      subst line
      refine Reading.faithful_spelled (by simp) ⟨by simp, ?_, by simp, by simp, by simp⟩
      exact fun _ => String.toList_ofList.symm
    split
    · rename_i letter
      exact word_faithful letter
    split
    · rename_i hex
      obtain ⟨rfl, hex⟩ := hex
      cases cs with
      | nil => simp at hex
      | cons x cs => exact hexadecimal_faithful (by simpa using hex)
    split
    · rename_i digit
      exact number_faithful digit
    split
    · rename_i quote
      exact quotation_faithful quote
    split
    · rename_i text kind found
      obtain ⟨start, entry⟩ := symbol?_spec found
      obtain ⟨notString, notEnd, notLine, some⟩ := symbols_kinds _ entry
      have plain := symbols_plain _ entry
      exact Reading.faithful_spelled start (.spelled notString notEnd notLine some plain)
    · exact Reading.faithful_fail

theorem quotationFrom_length (q : Char) (n : Nat) (contents cs : List Char) :
    n ≤ (quotationFrom q n contents cs).length := by
  fun_induction quotationFrom q n contents cs <;> grind [Reading.fail, string]

theorem integer_length (text : List Char) (value : Nat) :
    (integer text value).length = text.length := by
  unfold integer
  split <;> rfl

theorem decimal_length (digits : List Char) : (decimal digits).length = digits.length := by
  unfold decimal
  split
  · rfl
  · exact integer_length _ _

theorem number_length {c : Char} {cs : List Char} (h : c.isDigit) :
    0 < (number (c :: cs)).length := by
  have some := List.length_pos_iff.2 (takeWhile_ne_nil h cs)
  unfold number
  split
  · split
    · rwa [decimal_length]
    · simp only [float, Reading.spelled, List.length_append, List.length_cons]
      omega
  · rwa [decimal_length]

theorem hexadecimal_length (c d : Char) (cs : List Char) :
    0 < (hexadecimal (c :: d :: cs)).length := by
  unfold hexadecimal
  simp only [List.drop_succ_cons, List.drop_zero, List.take_succ_cons, List.take_zero]
  split
  · exact Nat.zero_lt_two
  · simp [integer_length]

/-- Characters are used up, unless the first one starts no lexeme. -/
theorem read_progress (c : Char) (cs : List Char) : 0 < (read (c :: cs)).length ∨
    (read (c :: cs)).result = .error (.error (.unrecognized c) 0) := by
  rw [read]
  split
  · exact .inl Nat.zero_lt_one
  split
  · rename_i letter
    exact .inl (List.length_pos_iff.2 (takeWhile_ne_nil letter cs))
  split
  · rename_i hex
    cases cs with
    | nil => simp at hex
    | cons x cs => exact .inl (hexadecimal_length c x cs)
  split
  · rename_i digit
    exact .inl (number_length digit)
  split
  · exact .inl (quotationFrom_length c 1 [] cs)
  split
  · rename_i text kind found
    have entry := (symbols_kinds _ (symbol?_spec found).2).2.2.2
    exact .inl (List.length_pos_iff.2 entry)
  · exact .inr rfl

theorem not_isLetter_of_isDigit {c : Char} (h : c.isDigit) : isLetter c = false := by
  change (decide ('0'.val ≤ c.val) && decide (c.val ≤ '9'.val)) = true at h
  rw [Bool.eq_false_iff]
  intro letter
  change ((decide ('A'.val ≤ c.val ∧ c.val ≤ 'Z'.val) ||
    (decide ('a'.val ≤ c.val) && decide (c.val ≤ 'z'.val))) || c == '_') = true at letter
  simp only [Bool.or_eq_true, Bool.and_eq_true, decide_eq_true_eq, UInt32.le_iff_toNat_le,
    beq_iff_eq] at h letter
  obtain (⟨upper, -⟩ | ⟨lower, -⟩) | rfl := letter
  · exact absurd (Nat.le_trans upper h.2) (by decide)
  · exact absurd (Nat.le_trans lower h.2) (by decide)
  · exact absurd h.2 (by decide)

/-- A digit starts a number, unless it is the zero of a hexadecimal integer. -/
theorem read_of_digit {c : Char} {cs : List Char} (digit : c.isDigit)
    (noHex : cs.head? ≠ some 'x' ∧ cs.head? ≠ some 'X') : read (c :: cs) = number (c :: cs) := by
  have noLine : c ≠ '\n' := by
    rintro rfl
    cases digit
  simp only [read, noLine, not_isLetter_of_isDigit digit, digit, noHex.1, noHex.2, or_self,
    and_false, if_true, if_false, Bool.false_eq_true]

/-- The end of a text is only read where no character is left. -/
theorem eq_nil_of_read_ending {cs : List Char} {l : Lexeme} (h : (read cs).result = .ok l)
    (ending : l.kind = .endOfText) : cs = [] := by
  obtain ⟨slice, rest, rfl, length, spells⟩ := read_faithful cs l h
  have none : slice = [] := spells.ending.2 ending
  subst none
  cases rest with
  | nil => rfl
  | cons c cs =>
    obtain some | unknown := read_progress c cs
    · exact absurd length (Nat.ne_of_gt some)
    · rw [List.nil_append, unknown] at h
      cases h

end AresSyntax.Lexeme
