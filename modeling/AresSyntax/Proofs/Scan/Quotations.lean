import AresSyntax.Proofs.Scan.Places

/-!
String literals are decoded exactly: item by item, up to the closing quote or to the first
characters that are no item.

* `Lexeme.Item`, `Lexeme.Items`: what stands in a literal, and what it stands for;
* `Lexeme.Broken`: what is wrong where no item goes on and no quote closes the literal;
* `OutcomeAt`: an outcome of a text starts at an offset;
* `quotation_decoded`: a literal gives what its items stand for, or the flaw behind them.
-/
namespace AresSyntax

section
variable {α β : Type} [BEq α] [LawfulBEq α] {table : List (α × β)} {a : α}

theorem mem_of_lookup {b : β} (h : table.lookup a = some b) : (a, b) ∈ table := by
  obtain ⟨l₁, l₂, rfl, -⟩ := List.lookup_eq_some_iff.1 h
  simp

theorem lookup_eq_none : table.lookup a = none ↔ ∀ b, (a, b) ∉ table := by
  rw [List.lookup_eq_none_iff]
  constructor
  · intro h b entry
    exact bne_iff_ne.1 (h _ entry) rfl
  · intro h p entry
    rw [bne_iff_ne]
    rintro rfl
    exact h p.2 entry

end

namespace Lexeme

/-- An item of a literal between two `quote`s, with the character that it stands for: any character
but the quote and the backslash stands for itself, a backslash before a character for its escape,
and a backslash with an `x` and two digits for the character with that number. -/
inductive Item (quote : Char) : List Char → Char → Prop
  | plain {c : Char} (other : c ≠ quote) (noBackslash : c ≠ '\\') : Item quote [c] c
  | escape {e c : Char} (known : (e, c) ∈ escapes) : Item quote ['\\', e] c
  | hex {high low c : Char} (isHigh : Text.isHexDigit high) (isLow : Text.isHexDigit low)
      (number : c.toNat = Text.digitsValue 16 [high, low]) : Item quote ['\\', 'x', high, low] c

/-- Items one behind the other, with the characters that they stand for. -/
inductive Items (quote : Char) : List Char → List Char → Prop
  | nil : Items quote [] []
  | cons {item body contents : List Char} {c : Char} (first : Item quote item c)
      (more : Items quote body contents) : Items quote (item ++ body) (c :: contents)

/-- What is wrong with a literal that goes on with some characters behind its first `n`, which are
its quote and its items, and how far into it that is: it ends or has nothing behind a backslash, or
it has too few digits or no escape there. -/
inductive Broken (n : Nat) : List Char → LexicalError → Nat → Prop
  | ended : Broken n [] .unterminatedString 0
  | backslash : Broken n ['\\'] .unterminatedString 0
  | digits {ds behind : List Char} (few : ds.length < 2) (digits : ∀ d ∈ ds, Text.isHexDigit d)
      (stop : ∀ c ∈ behind.head?, ¬ Text.isHexDigit c) :
      Broken n ('\\' :: 'x' :: (ds ++ behind)) .incompleteHexEscape (n + 2 + ds.length)
  | escape {e : Char} {behind : List Char} (noDigits : e ≠ 'x')
      (unknown : ∀ c, (e, c) ∉ escapes) :
      Broken n ('\\' :: e :: behind) (.invalidEscape (String.singleton e)) (n + 1)

/-- The pairs of the table have different keys. -/
theorem lookup_escapes {e c : Char} (h : (e, c) ∈ escapes) : escapes.lookup e = some c := by
  have all : ∀ p ∈ escapes, escapes.lookup p.1 = some p.2 := by decide
  exact all _ h

theorem lookup_escapes_x : escapes.lookup 'x' = none := rfl

end Lexeme

theorem Text.digitValue_lt {c : Char} (h : isHexDigit c) : digitValue c < 16 := by
  simp only [isHexDigit, Bool.or_eq_true, Bool.and_eq_true, decide_eq_true_eq] at h
  unfold digitValue
  split
  · rename_i digit
    simp only [Char.isDigit, Bool.and_eq_true, decide_eq_true_eq] at digit
    have last : c.toNat ≤ 57 := digit.2
    have zero : '0'.toNat = 48 := rfl
    omega
  split
  · rename_i noDigit small
    have first : 97 ≤ c.toNat := small
    have letter : 'a'.toNat = 97 := rfl
    obtain (digit | ⟨-, last⟩) | ⟨-, last⟩ := h
    · exact absurd digit noDigit
    · have last : c.toNat ≤ 102 := last
      omega
    · have last : c.toNat ≤ 70 := last
      omega
  · rename_i noDigit capital
    have letter : 'A'.toNat = 65 := rfl
    obtain (digit | ⟨small, -⟩) | ⟨-, last⟩ := h
    · exact absurd digit noDigit
    · exact absurd small capital
    · have last : c.toNat ≤ 70 := last
      omega

/-- Two digits are the number of a character. -/
theorem toNat_digits {high low : Char} (isHigh : Text.isHexDigit high)
    (isLow : Text.isHexDigit low) : (Char.ofNat (Text.digitsValue 16 [high, low])).toNat =
      Text.digitsValue 16 [high, low] := by
  have first := Text.digitValue_lt isHigh
  have second := Text.digitValue_lt isLow
  have value : Text.digitsValue 16 [high, low] =
      Text.digitValue high * 16 + Text.digitValue low := by simp [Text.digitsValue]
  have valid : (Text.digitsValue 16 [high, low]).isValidChar := .inl (by omega)
  rw [Char.ofNat, dif_pos valid]
  rfl

namespace Lexeme

section
variable {q : Char}

/-- An item of a text is known from the text. -/
theorem Item.unique {xs ys behind behind' : List Char} {a b : Char} (h : Item q xs a)
    (h' : Item q ys b) (same : xs ++ behind = ys ++ behind') : xs = ys := by
  have noDigits : ∀ c, ('x', c) ∉ escapes := lookup_eq_none.1 lookup_escapes_x
  cases h <;> cases h' <;> grind

/-- What is broken does not go on with an item. -/
theorem Broken.no_item {n k : Nat} {cs item behind : List Char} {e : LexicalError} {c : Char}
    (h : Broken n cs e k) (first : Item q item c) : cs ≠ item ++ behind := by
  have noDigits : ∀ c, ('x', c) ∉ escapes := lookup_eq_none.1 lookup_escapes_x
  cases h with
  | ended => cases first <;> nofun
  | backslash => cases first <;> grind
  | escape => cases first <;> grind
  | @digits ds rest few isDigit stop =>
    match ds, rest with
    | [], [] => cases first <;> grind
    | [], c :: rest => cases first <;> grind
    | [high], [] => cases first <;> grind
    | [high], c :: rest => cases first <;> grind

theorem Broken.offset_le {n k : Nat} {cs : List Char} {e : LexicalError} (h : Broken n cs e k) :
    k ≤ n + cs.length := by
  cases h <;> simp only [List.length_cons, List.length_append, List.length_nil] <;> omega

theorem Item.length_pos {item : List Char} {c : Char} (h : Item q item c) : 0 < item.length := by
  cases h <;> exact Nat.succ_pos _

/-- Holds if an item or something broken stands first. -/
def ItemOrBroken (quote : Char) (n : Nat) (cs : List Char) : Prop :=
  (∃ item c rest, cs = item ++ rest ∧ Item quote item c) ∨ ∃ e k, Broken n cs e k

/-- No items go on longer than those in front of what is broken. -/
theorem Broken.longest {n k : Nat} {body contents behind body' contents' behind' : List Char}
    {e : LexicalError} (h : Broken n behind e k) (items : Items q body contents)
    (items' : Items q body' contents') (same : body' ++ behind' = body ++ behind) :
    body' <+: body := by
  induction items' generalizing body contents with
  | nil => exact List.nil_prefix
  | cons first' more' ih =>
    cases items with
    | nil => exact absurd (same.symm.trans (List.append_assoc _ _ _)) (h.no_item first')
    | cons first more =>
      rw [List.append_assoc, List.append_assoc] at same
      obtain rfl := first'.unique first same
      exact (List.prefix_append_right_inj _).2 (ih more (List.append_cancel_left same))

/-- Behind a backslash and an `x` stand two digits, or too few of them. -/
theorem item_or_broken_hex (n : Nat) (cs : List Char) : ItemOrBroken q n ('\\' :: 'x' :: cs) := by
  match cs with
  | [] => exact .inr ⟨_, _, @Broken.digits n [] [] (by simp) (by simp) (by simp)⟩
  | high :: cs =>
    by_cases isHigh : Text.isHexDigit high
    · match cs with
      | [] => exact .inr ⟨_, _, @Broken.digits n [high] [] (by simp) (by simpa) (by simp)⟩
      | low :: cs =>
        by_cases isLow : Text.isHexDigit low
        · exact .inl ⟨_, _, cs, rfl, .hex isHigh isLow (toNat_digits isHigh isLow)⟩
        · exact .inr ⟨_, _, @Broken.digits n [high] (low :: cs) (by simp) (by simpa)
            (by simpa using isLow)⟩
    · exact .inr ⟨_, _, @Broken.digits n [] (high :: cs) (by simp) (by simp)
        (by simpa using isHigh)⟩

/-- Before the quote stands an item, or something is broken. -/
theorem item_or_broken (n : Nat) {cs : List Char} (noQuote : cs.head? ≠ some q) :
    ItemOrBroken q n cs := by
  match cs with
  | [] => exact .inr ⟨_, _, .ended⟩
  | c :: cs =>
    by_cases backslash : c = '\\'
    · subst backslash
      match cs with
      | [] => exact .inr ⟨_, _, .backslash⟩
      | e :: cs =>
        cases known : escapes.lookup e with
        | some d => exact .inl ⟨_, d, cs, rfl, .escape (mem_of_lookup known)⟩
        | none =>
          by_cases digits : e = 'x'
          · subst digits
            exact item_or_broken_hex n cs
          · exact .inr ⟨_, _, .escape digits (lookup_eq_none.1 known)⟩
    · have other : c ≠ q := fun closing => noQuote (by rw [closing]; rfl)
      exact .inl ⟨_, c, cs, rfl, .plain other backslash⟩

/-- Every text goes on with items, and behind these with the quote or with what is broken. -/
theorem exists_items (n : Nat) (cs : List Char) : ∃ body contents behind,
    cs = body ++ behind ∧ Items q body contents ∧
      ((∃ rest, behind = q :: rest) ∨ ∃ e k, Broken (n + body.length) behind e k) := by
  induction length : cs.length using Nat.strongRecOn generalizing n cs with
  | ind size ih =>
    by_cases closing : cs.head? = some q
    · obtain ⟨rest, rfl⟩ := List.head?_eq_some_iff.1 closing
      exact ⟨[], [], q :: rest, rfl, .nil, .inl ⟨rest, rfl⟩⟩
    obtain ⟨item, c, rest, rfl, first⟩ | ⟨e, k, broken⟩ := item_or_broken n closing
    · have fewer : rest.length < size := by
        rw [← length, List.length_append]
        exact Nat.lt_add_of_pos_left first.length_pos
      obtain ⟨body, contents, behind, rfl, items, stop⟩ := ih _ fewer (n + item.length) rest rfl
      refine ⟨item ++ body, _, behind, (List.append_assoc _ _ _).symm, .cons first items, ?_⟩
      rwa [List.length_append, ← Nat.add_assoc]
    · exact ⟨[], [], cs, rfl, .nil, .inr ⟨e, k, broken⟩⟩

end

section
variable {q : Char} (quote : q = '"' ∨ q = '\'')
include quote

theorem ne_backslash : '\\' ≠ q := by
  obtain rfl | rfl := quote <;> decide

theorem read_quote (cs : List Char) : read (q :: cs) = quotationFrom q 1 [] cs := by
  obtain rfl | rfl := quote <;> rfl

/-- Reading goes on behind an item with what it stands for. -/
theorem Item.reads {item : List Char} {c : Char} (h : Item q item c) (n : Nat)
    (contents cs : List Char) : quotationFrom q n contents (item ++ cs) =
      quotationFrom q (n + item.length) (c :: contents) cs := by
  have other := ne_backslash quote
  cases h with
  | plain noQuote noBackslash =>
    rw [List.singleton_append, quotationFrom.eq_def]
    simp only [noQuote, noBackslash, if_false, List.length_singleton]
  | escape known =>
    rw [List.cons_append, quotationFrom.eq_def]
    simp only [other, if_false, if_true, List.singleton_append, lookup_escapes known]
    rfl
  | hex isHigh isLow number =>
    rw [List.cons_append, quotationFrom.eq_def]
    simp only [other, if_false, if_true, List.cons_append, List.nil_append, lookup_escapes_x,
      isHigh, isLow, ← number, Char.ofNat_toNat]
    rfl

theorem Items.reads {body contents : List Char} (h : Items q body contents) (n : Nat)
    (before cs : List Char) : quotationFrom q n before (body ++ cs) =
      quotationFrom q (n + body.length) (contents.reverse ++ before) cs := by
  induction h generalizing n before with
  | nil => rfl
  | cons first more ih =>
    rw [List.append_assoc, first.reads quote, ih, List.length_append, Nat.add_assoc,
      List.reverse_cons, List.append_assoc, List.singleton_append]

/-- Items with the quote behind them are a literal. -/
theorem Items.closed {body contents : List Char} (h : Items q body contents) (rest : List Char) :
    read (q :: (body ++ q :: rest)) = string contents (body.length + 2) := by
  rw [read_quote quote, h.reads quote, quotationFrom.eq_def]
  simp only [if_true, List.append_nil, List.reverse_reverse]
  congr 1
  omega

/-- A literal that is broken gives the flaw. -/
theorem Broken.reads {n k : Nat} {cs : List Char} {e : LexicalError} (h : Broken n cs e k)
    (contents : List Char) : (quotationFrom q n contents cs).result = .error (.error e k) := by
  have other := ne_backslash quote
  cases h with
  | ended => rfl
  | backslash =>
    rw [quotationFrom.eq_def]
    simp only [other, if_false, if_true]
    rfl
  | escape noDigits unknown =>
    rw [quotationFrom.eq_def]
    simp only [other, if_false, if_true, lookup_eq_none.2 unknown, noDigits]
    rfl
  | @digits ds behind few isDigit stop =>
    rw [quotationFrom.eq_def]
    simp only [other, if_false, if_true, lookup_escapes_x]
    match ds, behind with
    | [], [] => rfl
    | [], c :: behind =>
      simp only [List.nil_append, stop c rfl]
      rfl
    | [high], [] =>
      simp only [List.append_nil, isDigit high (List.mem_singleton_self _), if_true]
      rfl
    | [high], c :: behind =>
      simp only [List.singleton_append, isDigit high (List.mem_singleton_self _), stop c rfl,
        if_true]
      rfl

end

/-- Characters with a backslash before every `quote` and backslash. -/
def escapedBy (quote : Char) (cs : List Char) : List Char :=
  cs.flatMap fun c => if c = quote ∨ c = '\\' then ['\\', c] else [c]

theorem items_escapedBy {q : Char} (quote : q = '"' ∨ q = '\'') (cs : List Char) :
    Items q (escapedBy q cs) cs := by
  induction cs with
  | nil => exact .nil
  | cons c cs ih =>
    rw [escapedBy, List.flatMap_cons]
    refine .cons ?_ ih
    split
    · rename_i special
      refine .escape ?_
      obtain rfl | rfl := special
      · obtain rfl | rfl := quote <;> decide
      · decide
    · rename_i plain
      exact .plain (fun h => plain (.inl h)) fun h => plain (.inr h)

end Lexeme

/-- Holds where the outcome at an index of a text starts, with trivia behind it. -/
def OutcomeAt (text file : String) (i p : Nat) : Prop :=
  let c := (Cursor.ofText file text).behind i
  p ≤ text.length ∧ (Trivia.read c.rest).unclosed = none ∧
    c.skip (Trivia.read c.rest).length = (Cursor.ofText file text).skip p

section
variable {text file : String} {i p : Nat}

/-- Where an outcome starts, the lexeme there is read. -/
theorem OutcomeAt.read (h : OutcomeAt text file i p) : ((Cursor.ofText file text).behind i).read =
    (((Cursor.ofText file text).skip p).outcome (Lexeme.read (text.toList.drop p)),
      (Cursor.ofText file text).skip (p + (Lexeme.read (text.toList.drop p)).length)) := by
  obtain ⟨-, closed, same⟩ := h
  rw [Cursor.read_of_closed closed same, Cursor.skip_skip]
  rfl

theorem OutcomeAt.behind (h : OutcomeAt text file i p) : (Cursor.ofText file text).behind (i + 1) =
    (Cursor.ofText file text).skip (p + (Lexeme.read (text.toList.drop p)).length) := by
  rw [Cursor.behind_add, Cursor.behind, h.read]
  rfl

theorem Cursor.location_skip {n : Nat} (inside : n ≤ text.length) :
    ((Cursor.ofText file text).skip n).location = ⟨.ofOffset text.toList n, file⟩ := by
  rw [ofText_skip inside]
  rfl

end

open Lexeme

/-- The first outcome of a text without trivia in front. -/
theorem outcomeAt_start {cs : List Char} (bare : Trivia.read cs = ⟨0, none⟩) (file : String) :
    OutcomeAt (String.ofList cs) file 0 0 := by
  have rest : (Cursor.ofText file (String.ofList cs)).rest = cs := String.toList_ofList
  refine ⟨Nat.zero_le _, ?_, ?_⟩
  · rw [Cursor.behind, rest, bare]
  · rw [Cursor.behind, rest, bare]

theorem outcomeAt_quote {q : Char} (quote : q = '"' ∨ q = '\'') (cs : List Char) (file : String) :
    OutcomeAt (String.ofList (q :: cs)) file 0 0 := by
  refine outcomeAt_start ?_ file
  obtain rfl | rfl := quote <;> rfl

section
variable {text file : String} {i p : Nat} {q : Char} {cs : List Char}
  (starts : OutcomeAt text file i p) (quote : q = '"' ∨ q = '\'')
  (opened : text.toList.drop p = q :: cs)
include starts quote opened

theorem outcomes_items {body contents rest : List Char} (cut : cs = body ++ q :: rest)
    (items : Items q body contents) :
    outcomes text file i = .ok ⟨.literal .string, String.ofList contents,
      some (.string (String.ofList contents)), ⟨.ofOffset text.toList p, file⟩⟩ ∧
    (Cursor.ofText file text).behind (i + 1) =
      (Cursor.ofText file text).skip (p + (body.length + 2)) := by
  have reading : Lexeme.read (text.toList.drop p) = string contents (body.length + 2) := by
    rw [opened, cut, items.closed quote]
  constructor
  · rw [outcomes, starts.read, reading, Cursor.outcome, string, Cursor.location_skip starts.1]
  · rw [starts.behind, reading]
    rfl

theorem outcomes_broken {body contents behind : List Char} {e : LexicalError} {k : Nat}
    (cut : cs = body ++ behind) (items : Items q body contents)
    (broken : Broken (1 + body.length) behind e k) :
    outcomes text file i = .error (.lexical e ⟨.ofOffset text.toList (p + k), file⟩) := by
  have reading : (Lexeme.read (text.toList.drop p)).result = .error (.error e k) := by
    rw [opened, read_quote quote, cut, items.reads quote]
    exact broken.reads quote _
  have inside : p + k ≤ text.length := by
    have size := congrArg List.length opened
    have near := broken.offset_le
    rw [List.length_drop, String.length_toList, cut, List.length_cons, List.length_append] at size
    omega
  rw [outcomes, starts.read, Cursor.outcome, reading]
  simp only [Cursor.skip_skip, Cursor.location_skip inside]

end

/-- A string literal is decoded exactly. Items up to the closing quote are a token with what they
stand for, and reading goes on behind the quote. Otherwise there are a longest run of items and
something broken behind it, which is reported. Any string is read again from its characters with a
backslash before every quote and backslash. -/
theorem quotation_decoded {text file : String} {i p : Nat} {q : Char} {cs : List Char}
    (starts : OutcomeAt text file i p) (quote : q = '"' ∨ q = '\'')
    (opened : text.toList.drop p = q :: cs) :
    (∀ body contents rest, cs = body ++ q :: rest → Items q body contents →
      outcomes text file i = .ok ⟨.literal .string, String.ofList contents,
        some (.string (String.ofList contents)), ⟨.ofOffset text.toList p, file⟩⟩ ∧
      (Cursor.ofText file text).behind (i + 1) =
        (Cursor.ofText file text).skip (p + (body.length + 2))) ∧
    ((∀ body contents rest, cs = body ++ q :: rest → ¬ Items q body contents) →
      ∃ body contents behind e k, cs = body ++ behind ∧ Items q body contents ∧
        (∀ body' contents' behind', cs = body' ++ behind' → Items q body' contents' →
          body' <+: body) ∧
        Broken (1 + body.length) behind e k ∧
        outcomes text file i = .error (.lexical e ⟨.ofOffset text.toList (p + k), file⟩)) ∧
    ∀ (w : String) (rest : List Char),
      outcomes (String.ofList (q :: (escapedBy q w.toList ++ q :: rest))) file 0 =
        .ok ⟨.literal .string, w, some (.string w), ⟨.start, file⟩⟩ := by
  refine ⟨fun body contents rest => outcomes_items starts quote opened, fun unclosed => ?_, ?_⟩
  · obtain ⟨body, contents, behind, cut, items, ⟨rest, rfl⟩ | ⟨e, k, broken⟩⟩ :=
      exists_items (q := q) 1 cs
    · exact absurd items (unclosed body contents rest cut)
    · refine ⟨body, contents, behind, e, k, cut, items, ?_, broken,
        outcomes_broken starts quote opened cut items broken⟩
      intro body' contents' behind' cut' items'
      exact broken.longest items items' (cut'.symm.trans cut)
  · intro w rest
    have opened : (String.ofList (q :: (escapedBy q w.toList ++ q :: rest))).toList =
        q :: (escapedBy q w.toList ++ q :: rest) := String.toList_ofList
    have read := (outcomes_items (outcomeAt_quote quote _ file) quote opened rfl
      (items_escapedBy quote w.toList)).1
    rw [String.ofList_toList] at read
    exact read

/-- An escaped quote and the digits of a character, in a literal behind another token. -/
theorem quotation_decoded_apostrophe : outcomes "a '\\'\\x41'.b" "it.ares" 1 =
    .ok ⟨.literal .string, "'A", some (.string "'A"), ⟨⟨1, 3, 2⟩, "it.ares"⟩⟩ := by
  have starts : OutcomeAt "a '\\'\\x41'.b" "it.ares" 1 2 := ⟨by decide, rfl, rfl⟩
  have items : Items '\'' ['\\', '\'', '\\', 'x', '4', '1'] ['\'', 'A'] :=
    .cons (.escape (by decide)) (.cons (.hex rfl rfl rfl) .nil)
  exact ((quotation_decoded starts (.inr rfl) rfl).1 _ _ ['.', 'b'] rfl items).1

end AresSyntax
