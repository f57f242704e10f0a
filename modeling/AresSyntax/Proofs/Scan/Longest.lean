import AresSyntax.Proofs.Scan.Spelling
import AresSyntax.Proofs.Scan.Quotations

/-!
Every token is the longest one that the lexical rules allow where it starts.

* `Lexeme.Run`, `Lexeme.LongestSymbol`: runs of a class and symbols that cannot be longer;
* `Lexeme.Prescribed`: the lexeme that the rules prescribe for a text;
* `Lexeme.read_follows`, `Lexeme.Prescribed.reads`: this and no other lexeme is read;
* `outcomes_prescribed`: the tokens of a text, and the characters that start none.
-/
namespace AresSyntax
namespace Lexeme

/-- Holds for characters of a class that do not go on with those behind them. -/
structure Run (p : Char → Bool) (run behind : List Char) : Prop where
  inside : ∀ c ∈ run, p c
  stop : ∀ c ∈ behind.head?, ¬ p c

/-- Holds for a symbol of the kind that the text starts with, if it starts with no longer one. -/
structure LongestSymbol (cs symbol : List Char) (kind : Kind) : Prop where
  entry : (symbol, kind) ∈ symbols
  start : symbol <+: cs
  longest : ∀ s ∈ symbols, s.1 <+: cs → s.1.length ≤ symbol.length

/-- The kind of a word: a reserved word has its own, and any other word is an identifier. -/
def IsWordOf (word : List Char) (kind : Kind) : Prop :=
  (word, kind) ∈ reservedWords ∨ (∀ k, (word, k) ∉ reservedWords) ∧ kind = .literal .ident

/-- Holds where a zero and an `x` of either case start a hexadecimal integer. -/
def StartsHex (cs : List Char) : Prop :=
  cs.head? = some '0' ∧ (cs.tail.head? = some 'x' ∨ cs.tail.head? = some 'X')

/-- Holds where a point and no second one follow. -/
def StartsPart (cs : List Char) : Prop := cs.head? = some '.' ∧ cs.tail.head? ≠ some '.'

/-- The lexeme that the lexical rules prescribe for a text: it takes the characters of the first
list and leaves those of the second one. -/
inductive Prescribed : List Char → List Char → Lexeme → Prop
  | ending : Prescribed [] [] ⟨.endOfText, "", none⟩
  | lineEnd {behind : List Char} : Prescribed ['\n'] behind ⟨.mark .newline, "\n", none⟩
  | word {run behind : List Char} {kind : Kind} (nonempty : run ≠ [])
      (letters : Run isLetter run behind) (known : IsWordOf run kind) :
      Prescribed run behind ⟨kind, String.ofList run, truthValue? kind⟩
  | hexadecimal {x : Char} {run behind : List Char} (mark : x = 'x' ∨ x = 'X')
      (nonempty : run ≠ []) (digits : Run Text.isHexDigit run behind)
      (fits : Text.digitsValue 16 run ≤ greatestInteger) :
      Prescribed ('0' :: x :: run) behind
        ⟨.literal .integer, String.ofList ('0' :: x :: run),
          some (.integer (Text.digitsValue 16 run))⟩
  | integer {run behind : List Char} (nonempty : run ≠ []) (digits : Run Char.isDigit run behind)
      (noHex : ¬ StartsHex (run ++ behind)) (noPart : ¬ StartsPart behind)
      (few : run.length ≤ digitLimit) (fits : Text.digitsValue 10 run ≤ greatestInteger) :
      Prescribed run behind
        ⟨.literal .integer, String.ofList run, some (.integer (Text.digitsValue 10 run))⟩
  | float {whole part behind : List Char} (nonempty : whole ≠ [])
      (digits : ∀ c ∈ whole, c.isDigit) (point : StartsPart ('.' :: (part ++ behind)))
      (more : Run Char.isDigit part behind) :
      Prescribed (whole ++ '.' :: part) behind
        ⟨.literal .float, String.ofList (whole ++ '.' :: part),
          some (.float (Binary64.ofDigits false whole part 0))⟩
  | string {q : Char} {body contents behind : List Char} (quote : q = '"' ∨ q = '\'')
      (items : Items q body contents) :
      Prescribed (q :: (body ++ [q])) behind
        ⟨.literal .string, String.ofList contents, some (.string (String.ofList contents))⟩
  | symbol {symbol behind : List Char} {kind : Kind}
      (longest : LongestSymbol (symbol ++ behind) symbol kind) :
      Prescribed symbol behind ⟨kind, String.ofList symbol, none⟩

/-- Holds for the characters that start no line end, word, number or string. -/
structure StartsOther (c : Char) : Prop where
  noLine : c ≠ '\n'
  noLetter : isLetter c = false
  noDigit : c.isDigit = false
  noQuote : ¬ (c = '"' ∨ c = '\'')

section
variable {p : Char → Bool} {run behind : List Char}

theorem run_takeWhile (p : Char → Bool) (cs : List Char) :
    Run p (cs.takeWhile p) (cs.dropWhile p) where
  inside := List.all_eq_true.1 List.all_takeWhile
  stop c hc := by
    have outside := List.head?_dropWhile_not p cs
    rw [Option.mem_def.1 hc] at outside
    simp [outside]

theorem Run.takeWhile_eq (h : Run p run behind) : (run ++ behind).takeWhile p = run := by
  rw [List.takeWhile_append_of_pos h.inside]
  cases behind with
  | nil => simp
  | cons c cs => simp [h.stop c rfl]

theorem Run.dropWhile_eq (h : Run p run behind) : (run ++ behind).dropWhile p = behind := by
  rw [List.dropWhile_append_of_pos h.inside]
  cases behind with
  | nil => rfl
  | cons c cs => exact List.dropWhile_cons_of_neg (h.stop c rfl)

end

/-- The entries of the table have different words. -/
theorem lookup_reservedWords {word : List Char} {kind : Kind} (h : (word, kind) ∈ reservedWords) :
    reservedWords.lookup word = some kind := by
  have all : ∀ e ∈ reservedWords, reservedWords.lookup e.1 = some e.2 := by decide
  exact all _ h

theorem isWordOf_iff {word : List Char} {kind : Kind} : IsWordOf word kind ↔
    (reservedWords.lookup word).getD (.literal .ident) = kind := by
  cases found : reservedWords.lookup word with
  | some k =>
    have entry := mem_of_lookup found
    constructor
    · rintro (other | ⟨unknown, -⟩)
      · exact Option.some.inj (found.symm.trans (lookup_reservedWords other))
      · exact absurd entry (unknown k)
    · rintro rfl
      exact .inl entry
  | none =>
    have unknown := lookup_eq_none.1 found
    constructor
    · rintro (entry | ⟨-, rfl⟩)
      · exact absurd entry (unknown kind)
      · rfl
    · rintro rfl
      exact .inr ⟨unknown, rfl⟩

section symbols

/-- The first of the indices below `n` from above at which there is something. -/
theorem findSome?_range_reverse {α : Type} {f : Nat → Option α} {n : Nat} {a : α}
    (h : (List.range n).reverse.findSome? f = some a) :
    ∃ k < n, f k = some a ∧ ∀ j < n, k < j → f j = none := by
  induction n with
  | zero => cases h
  | succ n ih =>
    simp only [List.range_succ, List.reverse_append, List.reverse_cons, List.reverse_nil,
      List.nil_append, List.singleton_append, List.findSome?_cons] at h
    cases last : f n with
    | some b =>
      rw [last] at h
      exact ⟨n, Nat.lt_succ_self n, last.trans h, fun j below above => by omega⟩
    | none =>
      rw [last] at h
      obtain ⟨k, below, found, none⟩ := ih h
      refine ⟨k, Nat.lt_succ_of_lt below, found, fun j less above => ?_⟩
      obtain less | rfl := Nat.lt_succ_iff_lt_or_eq.1 less
      · exact none j less above
      · exact last

variable {cs : List Char}

theorem length_symbols : ∀ s ∈ symbols, 0 < s.1.length ∧ s.1.length ≤ longestSymbol := by
  decide +kernel

/-- A symbol at the start of a text is found at its length. -/
theorem symbolOf?_ne_none {s : List Char × Kind} (entry : s ∈ symbols) (start : s.1 <+: cs) :
    symbolOf? cs (s.1.length - 1) ≠ none := by
  have positive := (length_symbols s entry).1
  have length : s.1.length - 1 + 1 = s.1.length := Nat.sub_add_cancel positive
  rw [symbolOf?, length, ← List.prefix_iff_eq_take.1 start]
  intro none
  exact absurd (beq_self_eq_true s.1) (List.find?_eq_none.1 none s entry)

theorem symbol?_eq_none : symbol? cs = none ↔ ∀ s ∈ symbols, ¬ s.1 <+: cs := by
  constructor
  · intro none s entry start
    have bounds := length_symbols s entry
    refine symbolOf?_ne_none entry start (List.findSome?_eq_none_iff.1 none _ ?_)
    rw [List.mem_reverse, List.mem_range]
    omega
  · intro none
    cases found : symbol? cs with
    | none => rfl
    | some s =>
      obtain ⟨symbol, kind⟩ := s
      obtain ⟨start, entry⟩ := symbol?_spec found
      exact absurd start (none _ entry)

/-- The symbol that is read is the longest one at the start of the text. -/
theorem longest_of_symbol? {symbol : List Char} {kind : Kind}
    (h : symbol? cs = some (symbol, kind)) : LongestSymbol cs symbol kind := by
  obtain ⟨start, entry⟩ := symbol?_spec h
  refine ⟨entry, start, fun s entry' start' => ?_⟩
  obtain ⟨k, -, found, none⟩ := findSome?_range_reverse h
  have cut : symbol = cs.take (k + 1) := by simpa using List.find?_some found
  have length := congrArg List.length cut
  have bounds := length_symbols s entry'
  have inside := start'.length_le
  rw [List.length_take] at length
  by_contra longer
  exact symbolOf?_ne_none entry' start' (none _ (by omega) (by omega))

theorem LongestSymbol.symbol?_eq {symbol : List Char} {kind : Kind}
    (h : LongestSymbol cs symbol kind) : symbol? cs = some (symbol, kind) := by
  cases found : symbol? cs with
  | none => exact absurd h.start (symbol?_eq_none.1 found _ h.entry)
  | some s =>
    obtain ⟨symbol', kind'⟩ := s
    have longest := longest_of_symbol? found
    have length := Nat.le_antisymm (longest.longest _ h.entry h.start)
      (h.longest _ longest.entry longest.start)
    obtain rfl : symbol = symbol' :=
      (List.prefix_of_prefix_length_le h.start longest.start
        (Nat.le_of_eq length)).eq_of_length length
    have same := (read_symbol (symbol, kind) h.entry).symm.trans
      (read_symbol (symbol, kind') longest.entry)
    cases same
    rfl

end symbols

section reading
variable {c : Char} {cs : List Char} {l : Lexeme}

/-- Holds if a reading of the text gives the lexeme only where the rules prescribe it. -/
def Reading.Follows (cs : List Char) (r : Reading) : Prop :=
  ∀ l, r.result = .ok l → ∃ slice behind, cs = slice ++ behind ∧ r.length = slice.length ∧
    Prescribed slice behind l

theorem Reading.follows_fail {e : LexicalError} {offset length : Nat} :
    (Reading.fail e offset length).Follows cs :=
  fun _ h => nomatch h

theorem Prescribed.follows {slice behind : List Char} (h : Prescribed slice behind l) :
    Reading.Follows (slice ++ behind) ⟨slice.length, .ok l⟩ := by
  rintro l' ⟨⟩
  exact ⟨slice, behind, rfl, rfl, h⟩

theorem word_follows (letter : isLetter c) : (word (c :: cs)).Follows (c :: cs) := by
  have run := run_takeWhile isLetter (c :: cs)
  have cut := List.takeWhile_append_dropWhile (p := isLetter) (l := c :: cs)
  have follows := (Prescribed.word (takeWhile_ne_nil letter cs) run (isWordOf_iff.2 rfl)).follows
  rwa [cut] at follows

theorem decimal_follows {run behind : List Char} (nonempty : run ≠ [])
    (digits : Run Char.isDigit run behind) (noHex : ¬ StartsHex (run ++ behind))
    (noPart : ¬ StartsPart behind) : (decimal run).Follows (run ++ behind) := by
  unfold decimal
  split
  · exact fun _ h => nomatch h
  rename_i few
  unfold integer
  split
  · rename_i fits
    exact (Prescribed.integer nonempty digits noHex noPart (Nat.le_of_not_lt few) fits).follows
  · exact Reading.follows_fail

theorem number_follows (digit : c.isDigit) (noHex : ¬ StartsHex (c :: cs)) :
    (number (c :: cs)).Follows (c :: cs) := by
  have run := run_takeWhile Char.isDigit (c :: cs)
  have nonempty := takeWhile_ne_nil digit cs
  have cut := List.takeWhile_append_dropWhile (p := Char.isDigit) (l := c :: cs)
  unfold number
  simp only
  generalize (c :: cs).takeWhile Char.isDigit = whole at *
  generalize (c :: cs).dropWhile Char.isDigit = behind at *
  rw [← cut] at noHex ⊢
  split
  · rename_i rest
    split
    · rename_i second
      exact decimal_follows nonempty run noHex fun part => part.2 second
    · rename_i single
      have more := run_takeWhile Char.isDigit rest
      have cut := List.takeWhile_append_dropWhile (p := Char.isDigit) (l := rest)
      have point : StartsPart
          ('.' :: (rest.takeWhile Char.isDigit ++ rest.dropWhile Char.isDigit)) :=
        ⟨rfl, by rwa [cut]⟩
      have follows := (Prescribed.float nonempty run.inside point more).follows
      rwa [List.append_assoc, List.cons_append, cut] at follows
  · rename_i other
    refine decimal_follows nonempty run noHex fun part => ?_
    cases behind with
    | nil => cases part.1
    | cons d rest =>
      obtain rfl : d = '.' := by simpa using part.1
      exact other rest rfl

theorem hexadecimal_follows {x : Char} (mark : x = 'x' ∨ x = 'X') :
    (hexadecimal ('0' :: x :: cs)).Follows ('0' :: x :: cs) := by
  have run := run_takeWhile Text.isHexDigit cs
  have cut := List.takeWhile_append_dropWhile (p := Text.isHexDigit) (l := cs)
  unfold hexadecimal
  simp only [List.drop_succ_cons, List.drop_zero, List.take_succ_cons, List.take_zero]
  generalize cs.takeWhile Text.isHexDigit = digits at *
  generalize cs.dropWhile Text.isHexDigit = behind at *
  rw [← cut]
  split
  · exact Reading.follows_fail
  rename_i some
  unfold integer
  split
  · rename_i fits
    exact (Prescribed.hexadecimal mark (by simpa using some) run fits).follows
  · exact Reading.follows_fail

theorem quote_follows {q : Char} (quote : q = '"' ∨ q = '\'') :
    (read (q :: cs)).Follows (q :: cs) := by
  obtain ⟨body, contents, behind, rfl, items, ⟨rest, rfl⟩ | ⟨e, k, broken⟩⟩ :=
    exists_items (q := q) 1 cs
  · have prescribed : Prescribed (q :: (body ++ [q])) rest _ := .string quote items
    have follows := prescribed.follows
    have cut : q :: (body ++ [q]) ++ rest = q :: (body ++ q :: rest) := by simp
    have length : (q :: (body ++ [q])).length = body.length + 2 := by simp
    rwa [items.closed quote, string, ← cut, ← length]
  · intro l h
    rw [read_quote quote, items.reads quote, broken.reads quote] at h
    cases h

/-- What is read is prescribed. -/
theorem read_follows (cs : List Char) : (read cs).Follows cs := by
  cases cs with
  | nil => exact Prescribed.ending.follows
  | cons c cs =>
    by_cases quote : c = '"' ∨ c = '\''
    · exact quote_follows quote
    rw [read]
    split
    · rename_i line
      subst line
      have prescribed : Prescribed ['\n'] cs _ := .lineEnd
      exact prescribed.follows
    split
    · rename_i letter
      exact word_follows letter
    split
    · rename_i hex
      obtain ⟨rfl, hex⟩ := hex
      cases cs with
      | nil => simp at hex
      | cons x cs => exact hexadecimal_follows (by simpa using hex)
    rename_i noHex
    split
    · rename_i digit
      exact number_follows digit (by simpa [StartsHex] using noHex)
    split
    · rename_i text kind found
      have longest := longest_of_symbol? found
      obtain ⟨behind, cut⟩ := longest.start
      rw [← cut] at longest ⊢
      exact (Prescribed.symbol longest).follows
    · exact Reading.follows_fail

/-- The characters of symbols start nothing else. -/
theorem startsOther_of_mem {s : List Char × Kind} (entry : s ∈ symbols) (inside : c ∈ s.1) :
    StartsOther c := by
  have all : (symbols.flatMap (·.1)).all (fun c =>
      !isLetter c && !c.isDigit && c != '"' && c != '\'') := by decide +kernel
  have other := List.all_eq_true.1 all c (List.mem_flatMap.2 ⟨s, entry, inside⟩)
  simp only [Bool.and_eq_true, Bool.not_eq_true', bne_iff_ne] at other
  obtain ⟨⟨⟨noLetter, noDigit⟩, double⟩, single⟩ := other
  exact ⟨(symbols_plain s entry c inside).1, noLetter, noDigit,
    fun quote => quote.elim double single⟩

theorem read_of_letter (letter : isLetter c) : read (c :: cs) = word (c :: cs) := by
  have noLine : c ≠ '\n' := by
    rintro rfl
    cases letter
  simp only [read, noLine, letter, if_true, if_false]

/-- A character that starts nothing else is left to the symbols. -/
theorem StartsOther.read_eq (h : StartsOther c) (cs : List Char) :
    read (c :: cs) = match symbol? (c :: cs) with
      | some (text, kind) => .spelled text kind none
      | none => .fail (.unrecognized c) 0 0 := by
  obtain ⟨noLine, noLetter, noDigit, noQuote⟩ := h
  have noZero : c ≠ '0' := by
    rintro rfl
    cases noDigit
  rw [read]
  rcases symbol? (c :: cs) with - | ⟨text, kind⟩ <;>
    simp only [noLine, noLetter, noZero, noDigit, noQuote, false_and, if_false, Bool.false_eq_true]

theorem read_of_hex {x : Char} (mark : x = 'x' ∨ x = 'X') :
    read ('0' :: x :: cs) = hexadecimal ('0' :: x :: cs) := by
  obtain rfl | rfl := mark <;> rfl

/-- Digits are a number, unless they are the zero of a hexadecimal integer. -/
theorem read_eq_number {run behind : List Char} (nonempty : run ≠ [])
    (digits : ∀ c ∈ run, c.isDigit) (noHex : ¬ StartsHex (run ++ behind)) :
    read (run ++ behind) = number (run ++ behind) := by
  obtain ⟨c, cs, rfl⟩ := List.exists_cons_of_ne_nil nonempty
  have digit := digits c List.mem_cons_self
  have noLine : c ≠ '\n' := by
    rintro rfl
    cases digit
  simp only [StartsHex, List.cons_append, List.head?_cons, List.tail_cons, Option.some.injEq]
    at noHex
  simp only [List.cons_append, read, noLine, not_isLetter_of_isDigit digit, noHex, digit, if_true,
    if_false, Bool.false_eq_true]

theorem noHex_of_point {whole : List Char} (digits : ∀ c ∈ whole, c.isDigit) (cs : List Char) :
    ¬ StartsHex (whole ++ '.' :: cs) := by
  rintro ⟨first, second⟩
  match whole with
  | [] => cases first
  | [c] => simp at second
  | c :: d :: whole =>
    have digit := digits d (by simp)
    obtain second | second := second
    · cases second
      cases digit
    · cases second
      cases digit

theorem number_of_run {run behind : List Char} (digits : Run Char.isDigit run behind)
    (noPart : ¬ StartsPart behind) : number (run ++ behind) = decimal run := by
  unfold number
  simp only [digits.takeWhile_eq, digits.dropWhile_eq]
  split
  · rename_i rest
    exact if_pos (by simpa [StartsPart] using noPart)
  · rfl

theorem number_of_part {whole part behind : List Char} (digits : ∀ c ∈ whole, c.isDigit)
    (point : StartsPart ('.' :: (part ++ behind))) (more : Run Char.isDigit part behind) :
    number (whole ++ '.' :: (part ++ behind)) = float whole part := by
  have run : Run Char.isDigit whole ('.' :: (part ++ behind)) := ⟨digits, by simp⟩
  have single : (part ++ behind).head? ≠ some '.' := point.2
  unfold number
  simp only [run.takeWhile_eq, run.dropWhile_eq, single, if_false, more.takeWhile_eq]

/-- What is prescribed is read. -/
theorem Prescribed.reads {slice behind : List Char} (h : Prescribed slice behind l) :
    read (slice ++ behind) = ⟨slice.length, .ok l⟩ := by
  cases h with
  | ending => rfl
  | lineEnd => rfl
  | @word run _ _ nonempty letters known =>
    obtain ⟨c, cs, rfl⟩ := List.exists_cons_of_ne_nil nonempty
    rw [List.cons_append, read_of_letter (letters.inside c List.mem_cons_self), Lexeme.word,
      ← List.cons_append, letters.takeWhile_eq, isWordOf_iff.1 known]
    rfl
  | hexadecimal mark nonempty digits fits =>
    rw [List.cons_append, List.cons_append, read_of_hex mark, Lexeme.hexadecimal]
    simp only [List.drop_succ_cons, List.drop_zero, List.take_succ_cons, List.take_zero,
      digits.takeWhile_eq, List.isEmpty_eq_false_iff.2 nonempty, Lexeme.integer, fits, if_true]
    rfl
  | integer nonempty digits noHex noPart few fits =>
    rw [read_eq_number nonempty digits.inside noHex, number_of_run digits noPart, decimal,
      if_neg (Nat.not_lt.2 few), Lexeme.integer, if_pos fits]
    rfl
  | @float whole part _ nonempty digits point more =>
    have cut : whole ++ '.' :: part ++ behind = whole ++ '.' :: (part ++ behind) := by simp
    rw [cut, read_eq_number nonempty digits (noHex_of_point digits _),
      number_of_part digits point more]
    rfl
  | @string q body contents _ quote items =>
    have cut : q :: (body ++ [q]) ++ behind = q :: (body ++ q :: behind) := by simp
    have length : (q :: (body ++ [q])).length = body.length + 2 := by simp
    rw [cut, items.closed quote, length]
    rfl
  | symbol longest =>
    have nonempty := (symbols_kinds _ longest.entry).2.2.2
    obtain ⟨c, cs, rfl⟩ := List.exists_cons_of_ne_nil nonempty
    have other := startsOther_of_mem longest.entry (List.mem_cons_self)
    rw [List.cons_append, other.read_eq, ← List.cons_append, longest.symbol?_eq]
    rfl

/-- For one text no two lexemes are prescribed. -/
theorem Prescribed.unique {slice behind slice' behind' : List Char} {l' : Lexeme}
    (h : Prescribed slice behind l) (h' : Prescribed slice' behind' l')
    (same : slice ++ behind = slice' ++ behind') : slice' = slice ∧ l' = l := by
  have reads := h.reads
  rw [same, h'.reads, Reading.mk.injEq, Except.ok.injEq] at reads
  exact ⟨(List.append_inj same reads.1.symm).1.symm, reads.2⟩

/-- The kinds with a value. -/
def valued : List Kind := [.literal .string, .literal .integer, .literal .float,
  .literal .trueWord, .literal .falseWord]

theorem IsWordOf.truthValue? {run : List Char} {kind : Kind} (h : IsWordOf run kind) :
    ((truthValue? kind).isSome ↔ kind ∈ valued) ∧ ¬ kind.isImaginary := by
  have all : ∀ e ∈ reservedWords,
      ((Lexeme.truthValue? e.2).isSome ↔ e.2 ∈ valued) ∧ ¬ e.2.isImaginary := by decide
  obtain entry | ⟨-, rfl⟩ := h
  · exact all _ entry
  · decide

theorem Prescribed.valued {slice behind : List Char} (h : Prescribed slice behind l) :
    (l.value.isSome ↔ l.kind ∈ valued) ∧ ¬ l.kind.isImaginary := by
  have all : ∀ s ∈ symbols, s.2 ∉ Lexeme.valued ∧ ¬ s.2.isImaginary := by decide +kernel
  cases h with
  | word nonempty letters known => exact known.truthValue?
  | symbol longest =>
    obtain ⟨noValue, real⟩ := all _ longest.entry
    exact ⟨⟨nofun, fun valued => absurd valued noValue⟩, real⟩
  | _ => simp [Lexeme.valued, Kind.isImaginary]

/-- A character is not known if it starts nothing else and no symbol. -/
theorem read_unrecognized_iff {d : Char} {k : Nat} :
    (read cs).result = .error (.error (.unrecognized d) k) ↔
      k = 0 ∧ ∃ behind, cs = d :: behind ∧ StartsOther d ∧ ∀ s ∈ symbols, ¬ s.1 <+: cs := by
  constructor
  · intro h
    cases cs with
    | nil => cases h
    | cons c cs =>
      rw [read] at h
      split at h
      · cases h
      rename_i noLine
      split at h
      · cases h
      rename_i noLetter
      split at h
      · exact absurd h ((hexadecimal_isNumber _).known d k)
      split at h
      · exact absurd h ((number_isNumber _).known d k)
      rename_i noDigit
      split at h
      · exact absurd h (quotationFrom_known _ _ _ _ d k)
      rename_i noQuote
      split at h
      · cases h
      rename_i none
      cases h
      exact ⟨rfl, cs, rfl, ⟨noLine, by simpa using noLetter, by simpa using noDigit, noQuote⟩,
        symbol?_eq_none.1 none⟩
  · rintro ⟨rfl, behind, rfl, other, none⟩
    rw [other.read_eq, symbol?_eq_none.2 none]
    rfl

end reading

end Lexeme

open Lexeme

section
variable {text file : String} {i p : Nat}

/-- An outcome starts somewhere, unless a long comment is left open. -/
theorem exists_outcomeAt
    (closed : ∀ location, outcomes text file i ≠ .error (.lexical .unterminatedComment location)) :
    ∃ p, OutcomeAt text file i p := by
  have reads := (Cursor.ofText_reads text file).behind i
  rw [outcomes] at closed
  generalize same : (Cursor.ofText file text).behind i = c at closed reads
  cases open_ : (Trivia.read c.rest).unclosed with
  | some opened =>
    rw [Cursor.read] at closed
    simp [open_] at closed
  | none =>
    obtain ⟨p, inside, start⟩ := reads.skip (Trivia.read c.rest).length
    refine ⟨p, inside, ?_, ?_⟩
    · rwa [same]
    · rw [same, start, Cursor.ofText_skip inside]

/-- Where an outcome starts there is no mark of a long comment. -/
theorem OutcomeAt.no_mark (h : OutcomeAt text file i p) :
    ¬ Segment.mark <+: text.toList.drop p := by
  obtain ⟨-, closed, same⟩ := h
  have behind := Trivia.read_behind closed
  have rest := congrArg Cursor.rest same
  rw [Cursor.rest_skip, Cursor.rest_skip] at rest
  rw [rest] at behind
  rintro ⟨cs, cut⟩
  have mark : (Cursor.ofText file text).rest.drop p = Segment.mark ++ cs := cut.symm
  rw [mark] at behind
  have comment : Trivia.readFrom (.long 0) 3 cs = ⟨0, none⟩ := behind
  exact absurd (Trivia.readFrom_behind comment).1 (by decide)

/-- A token is a lexeme that the rules prescribe where it starts, and reading goes on behind its
characters. -/
theorem exists_prescribed {t : Token} (h : outcomes text file i = .ok t) :
    ∃ p slice behind, OutcomeAt text file i p ∧
      t.location = ⟨.ofOffset text.toList p, file⟩ ∧ text.toList.drop p = slice ++ behind ∧
      Prescribed slice behind t.lexeme ∧
      (Cursor.ofText file text).behind (i + 1) =
        (Cursor.ofText file text).skip (p + slice.length) := by
  obtain ⟨p, starts⟩ : ∃ p, OutcomeAt text file i p := exists_outcomeAt fun l => by simp [h]
  rw [outcomes, starts.read, Cursor.outcome, Cursor.location_skip starts.1] at h
  have follows := read_follows (text.toList.drop p)
  have next := starts.behind
  split at h
  · rename_i l result
    obtain ⟨slice, behind, cut, length, prescribed⟩ := follows l result
    cases h
    rw [length] at next
    exact ⟨p, slice, behind, starts, rfl, cut, prescribed, next⟩
  · cases h
  · cases h

theorem outcomes_unrecognized_iff {c : Char} {location : Location} :
    outcomes text file i = .error (.lexical (.unrecognized c) location) ↔
      ∃ p behind, OutcomeAt text file i p ∧ location = ⟨.ofOffset text.toList p, file⟩ ∧
        text.toList.drop p = c :: behind ∧ StartsOther c ∧
        ∀ s ∈ symbols, ¬ s.1 <+: c :: behind := by
  constructor
  · intro h
    obtain ⟨p, starts⟩ : ∃ p, OutcomeAt text file i p := exists_outcomeAt fun l => by simp [h]
    rw [outcomes, starts.read, Cursor.outcome] at h
    split at h
    · cases h
    · rename_i e k result
      cases h
      obtain ⟨rfl, behind, cut, other, none⟩ := read_unrecognized_iff.1 result
      exact ⟨p, behind, starts, Cursor.location_skip starts.1, cut, other, cut ▸ none⟩
    · cases h
  · rintro ⟨p, behind, starts, rfl, cut, other, none⟩
    have result := read_unrecognized_iff.2 ⟨rfl, behind, rfl, other, none⟩
    rw [← cut] at result
    rw [outcomes, starts.read, Cursor.outcome, result]
    simp only [Cursor.skip_zero, Cursor.location_skip starts.1]

end

/-- A token is what the lexical rules prescribe where it starts, and they prescribe nothing else
there; reading goes on behind its characters. A character is not recognized where the text goes on
and the rules prescribe nothing. -/
theorem outcomes_prescribed (text file : String) (i : Nat) :
    (∀ t, outcomes text file i = .ok t → ∃ p slice behind, OutcomeAt text file i p ∧
      t.location = ⟨.ofOffset text.toList p, file⟩ ∧ text.toList.drop p = slice ++ behind ∧
      Prescribed slice behind t.lexeme ∧
      (∀ slice' behind' l, slice ++ behind = slice' ++ behind' → Prescribed slice' behind' l →
        slice' = slice ∧ l = t.lexeme) ∧
      ¬ Segment.mark <+: slice ++ behind ∧
      (Cursor.ofText file text).behind (i + 1) =
        (Cursor.ofText file text).skip (p + slice.length) ∧
      (t.value.isSome ↔ t.kind ∈ valued) ∧ ¬ t.kind.isImaginary) ∧
    ∀ c location, outcomes text file i = .error (.lexical (.unrecognized c) location) ↔
      ∃ p behind, OutcomeAt text file i p ∧ location = ⟨.ofOffset text.toList p, file⟩ ∧
        text.toList.drop p = c :: behind ∧ StartsOther c ∧
        ∀ s ∈ symbols, ¬ s.1 <+: c :: behind := by
  refine ⟨fun t h => ?_, fun c location => outcomes_unrecognized_iff⟩
  obtain ⟨p, slice, behind, starts, place, cut, prescribed, next⟩ := exists_prescribed h
  have noMark : ¬ Segment.mark <+: slice ++ behind := cut ▸ starts.no_mark
  exact ⟨p, slice, behind, starts, place, cut, prescribed,
    fun _ _ _ same other => prescribed.unique other same, noMark, next, prescribed.valued⟩

end AresSyntax
