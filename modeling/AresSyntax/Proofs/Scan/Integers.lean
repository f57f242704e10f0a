import Mathlib.Data.Nat.Digits.Lemmas
import AresSyntax.Proofs.Scan.Longest

/-!
Integer literals are exact up to the largest signed 64-bit integer.

* `Text.place`, `Text.positional`: what a digit and a run of digits stand for;
* `integerAt`: what an integer literal gives, by its value alone;
* `outcomes_decimal`, `outcomes_hexadecimal`: the literals of both bases, with or without a flaw;
* `integers_exact`: both of these, and that all integers up to the limit and no others are values.
-/
namespace AresSyntax

namespace Text

/-- The digits up to base sixteen, in the order of what they stand for. -/
def digitRow : List Char := "0123456789abcdef".toList

/-- What a digit of either case stands for. -/
def place (c : Char) : Nat := digitRow.idxOf c.toLower

/-- What a run of digits stands for: the last one counts once, and any other one `base` times as
much as it would one place further back. -/
def positional (base : Nat) (ds : List Char) : Nat := Nat.ofDigits base (ds.reverse.map place)

theorem isHexDigit_of_isDigit {c : Char} (h : c.isDigit) : isHexDigit c := by
  simp [isHexDigit, h]

theorem toNat_lt_of_isHexDigit {c : Char} (h : isHexDigit c) : c.toNat < 128 := by
  simp only [isHexDigit, Char.isDigit, Bool.or_eq_true, Bool.and_eq_true, decide_eq_true_eq] at h
  obtain (⟨-, last⟩ | ⟨-, last⟩) | ⟨-, last⟩ := h
  · exact Nat.lt_of_le_of_lt (m := 57) last (by decide)
  · exact Nat.lt_of_le_of_lt (m := 102) last (by decide)
  · exact Nat.lt_of_le_of_lt (m := 70) last (by decide)

theorem digitValue_eq_place {c : Char} (h : isHexDigit c) : digitValue c = place c := by
  have all : ∀ n < 128, isHexDigit (Char.ofNat n) →
      digitValue (Char.ofNat n) = place (Char.ofNat n) := by decide
  have same := all c.toNat (toNat_lt_of_isHexDigit h)
  rw [Char.ofNat_toNat] at same
  exact same h

theorem digitsValue_concat (base : Nat) (ds : List Char) (d : Char) :
    digitsValue base (ds ++ [d]) = digitsValue base ds * base + digitValue d := by
  simp [digitsValue]

theorem digitsValue_eq_positional (base : Nat) {ds : List Char} (h : ∀ d ∈ ds, isHexDigit d) :
    digitsValue base ds = positional base ds := by
  induction ds using List.reverseRecOn with
  | nil => rfl
  | append_singleton ds d ih =>
    have last := digitValue_eq_place (h d (by simp))
    have others := ih fun c hc => h c (List.mem_append_left _ hc)
    rw [digitsValue_concat, others, last, positional, positional, List.reverse_append,
      List.reverse_singleton, List.singleton_append, List.map_cons, Nat.ofDigits_cons,
      Nat.mul_comm, Nat.add_comm]

/-- The digits that a number is written with are digits that stand for it. -/
theorem digits_of_toDigits {base : Nat} (two : 1 < base) (sixteen : base ≤ 16) (n : Nat) :
    (∀ d ∈ Nat.toDigits base n, isHexDigit d) ∧ digitsValue base (Nat.toDigits base n) = n := by
  have all : ∀ k < 16, isHexDigit (Nat.digitChar k) ∧ digitValue (Nat.digitChar k) = k := by
    decide
  induction n using Nat.strongRecOn with
  | ind n ih =>
    rw [Nat.toDigits_eq_if two]
    split
    · rename_i small
      obtain ⟨digit, value⟩ := all n (by omega)
      constructor
      · simpa using digit
      · simpa [digitsValue] using value
    · rename_i large
      obtain ⟨digits, value⟩ := ih (n / base) (Nat.div_lt_self (by omega) two)
      obtain ⟨last, rest⟩ := all (n % base) (Nat.lt_of_lt_of_le (Nat.mod_lt _ (by omega)) sixteen)
      constructor
      · intro d hd
        obtain hd | hd := List.mem_append.1 hd
        · exact digits d hd
        · exact List.mem_singleton.1 hd ▸ last
      · rw [digitsValue_concat, value, rest]
        exact Nat.div_add_mod' n base

end Text

/-- What an integer literal with the given characters and value gives: a token if the value is at
most the largest signed 64-bit integer, and otherwise the fault that it is too large. -/
def integerAt (location : Location) (literal : List Char) (value : Nat) : Outcome :=
  if value ≤ 2 ^ 63 - 1 then
    .ok ⟨.literal .integer, String.ofList literal, some (.integer value), location⟩
  else .error (.lexical .numberTooLarge location)

namespace Lexeme

theorem greatestInteger_eq : greatestInteger = 2 ^ 63 - 1 := rfl

/-- Digits that are no float are a decimal integer. -/
theorem read_decimal {run behind : List Char} (nonempty : run ≠ [])
    (digits : Run Char.isDigit run behind) (noHex : ¬ StartsHex (run ++ behind))
    (noPart : ¬ StartsPart behind) : read (run ++ behind) = decimal run := by
  rw [read_eq_number nonempty digits.inside noHex, number_of_run digits noPart]

/-- A zero and an `x` are a hexadecimal integer with all digits behind them. -/
theorem read_hexadecimal {x : Char} {run behind : List Char} (mark : x = 'x' ∨ x = 'X')
    (digits : Run Text.isHexDigit run behind) : read ('0' :: x :: (run ++ behind)) =
      if run = [] then .fail .malformedHex 0 2
      else integer ('0' :: x :: run) (Text.digitsValue 16 run) := by
  rw [read_of_hex mark, hexadecimal]
  simp only [List.drop_succ_cons, List.drop_zero, List.take_succ_cons, List.take_zero,
    digits.takeWhile_eq, List.isEmpty_iff]
  rfl

end Lexeme

open Lexeme

section
variable {text file : String} {i p : Nat} (starts : OutcomeAt text file i p)
include starts

theorem outcomes_integer {literal : List Char} {value : Nat}
    (reads : Lexeme.read (text.toList.drop p) = integer literal value) :
    outcomes text file i = integerAt ⟨.ofOffset text.toList p, file⟩ literal value ∧
      (Cursor.ofText file text).behind (i + 1) =
        (Cursor.ofText file text).skip (p + literal.length) := by
  constructor
  · rw [outcomes, starts.read, reads, integer, integerAt, greatestInteger_eq]
    split
    · simp only [Cursor.outcome, Reading.spelled, Cursor.location_skip starts.1]
    · simp only [Cursor.outcome, Reading.fail, Cursor.skip_zero, Cursor.location_skip starts.1]
  · rw [starts.behind, reads, integer_length]

/-- A decimal integer is read with all its digits, also where it is too large or too long. -/
theorem outcomes_decimal {run behind : List Char} (cut : text.toList.drop p = run ++ behind)
    (nonempty : run ≠ []) (digits : Run Char.isDigit run behind)
    (noHex : ¬ StartsHex (run ++ behind)) (noPart : ¬ StartsPart behind) :
    outcomes text file i = (if run.length ≤ 4300 then
        integerAt ⟨.ofOffset text.toList p, file⟩ run (Text.positional 10 run)
      else .error (.tooManyDigits run.length)) ∧
    (Cursor.ofText file text).behind (i + 1) =
      (Cursor.ofText file text).skip (p + run.length) := by
  have reads : Lexeme.read (text.toList.drop p) = decimal run :=
    cut ▸ read_decimal nonempty digits noHex noPart
  have value := Text.digitsValue_eq_positional 10 fun d hd =>
    Text.isHexDigit_of_isDigit (digits.inside d hd)
  have limit : digitLimit = 4300 := rfl
  by_cases few : run.length ≤ 4300
  · rw [decimal, if_neg (by omega), value] at reads
    rw [if_pos few]
    exact outcomes_integer starts reads
  · rw [if_neg few]
    constructor
    · rw [outcomes, starts.read, reads, decimal, if_pos (by omega)]
      rfl
    · rw [starts.behind, reads, decimal_length]

/-- A hexadecimal integer is read with all its digits, also where it is too large or has none. -/
theorem outcomes_hexadecimal {x : Char} {run behind : List Char} (mark : x = 'x' ∨ x = 'X')
    (cut : text.toList.drop p = '0' :: x :: (run ++ behind))
    (digits : Run Text.isHexDigit run behind) :
    outcomes text file i = (if run = [] then
        .error (.lexical .malformedHex ⟨.ofOffset text.toList p, file⟩)
      else integerAt ⟨.ofOffset text.toList p, file⟩ ('0' :: x :: run)
        (Text.positional 16 run)) ∧
    (Cursor.ofText file text).behind (i + 1) =
      (Cursor.ofText file text).skip (p + (2 + run.length)) := by
  have reads := read_hexadecimal mark digits
  rw [← cut, Text.digitsValue_eq_positional 16 digits.inside] at reads
  have length : ('0' :: x :: run).length = 2 + run.length := by
    simp only [List.length_cons]
    omega
  by_cases none : run = []
  · rw [if_pos none] at reads ⊢
    constructor
    · rw [outcomes, starts.read, reads]
      simp only [Cursor.outcome, Reading.fail, Cursor.skip_zero, Cursor.location_skip starts.1]
    · rw [starts.behind, reads, none]
      rfl
  · rw [if_neg none] at reads ⊢
    exact length ▸ outcomes_integer starts reads

end

/-- The value of an integer is within the limit. -/
theorem integer_in_range {text file : String} {i : Nat} {t : Token}
    (h : outcomes text file i = .ok t) (kind : t.kind = .literal .integer) :
    ∃ v : Nat, v ≤ 2 ^ 63 - 1 ∧ t.value = some (.integer v) := by
  obtain ⟨-, slice, behind, -, -, -, prescribed, -⟩ := exists_prescribed h
  obtain ⟨kind', text', value, location⟩ := t
  obtain rfl : kind' = .literal .integer := kind
  have range : ∀ v ≤ greatestInteger, ∃ w : Nat, w ≤ 2 ^ 63 - 1 ∧
      some (Value.integer v) = some (.integer w) := fun v fits => ⟨v, fits, rfl⟩
  generalize lexeme : Token.lexeme ⟨.literal .integer, text', value, location⟩ = l at prescribed
  simp only [Token.lexeme] at lexeme
  cases prescribed with
  | hexadecimal _ _ _ fits | integer _ _ _ _ _ fits =>
    cases lexeme
    exact range _ fits
  | word nonempty letters known =>
    have noWord : ∀ e ∈ reservedWords, e.2 ≠ .literal .integer := by decide
    cases lexeme
    obtain entry | ⟨-, other⟩ := known
    · exact absurd rfl (noWord _ entry)
    · cases other
  | symbol longest =>
    have noSymbol : ∀ s ∈ symbols, s.2 ≠ .literal .integer := by decide +kernel
    cases lexeme
    exact absurd rfl (noSymbol _ longest.entry)
  | _ => cases lexeme

theorem outcomeAt_digit {c : Char} (digit : c.isDigit) (cs : List Char) (file : String) :
    OutcomeAt (String.ofList (c :: cs)) file 0 0 :=
  outcomeAt_start (Trivia.read_digit digit cs) file

namespace Lexeme

/-- A run that ends with the text. -/
theorem run_nil {p : Char → Bool} {run : List Char} (inside : ∀ c ∈ run, p c) : Run p run [] :=
  ⟨inside, fun _ none => nomatch none⟩

theorem not_startsPart_nil : ¬ StartsPart [] := fun part => nomatch part.1

/-- The mark of a hexadecimal integer is no digit. -/
theorem not_startsHex {run : List Char} (digits : ∀ d ∈ run, d.isDigit) :
    ¬ StartsHex (run ++ []) := by
  rw [List.append_nil]
  rintro ⟨-, mark⟩
  have digit : ∀ x, run.tail.head? = some x → x.isDigit := fun x hx =>
    digits x (List.mem_of_mem_tail (List.mem_of_head? hx))
  obtain mark | mark := mark <;> exact absurd (digit _ mark) (by decide)

end Lexeme

section
variable {n : Nat} (fits : n ≤ 2 ^ 63 - 1) (file : String)
include fits

theorem outcomes_toDigits : outcomes (String.ofList (Nat.toDigits 10 n)) file 0 =
    .ok ⟨.literal .integer, String.ofList (Nat.toDigits 10 n), some (.integer n),
      ⟨.start, file⟩⟩ := by
  obtain ⟨c, cs, digits⟩ := List.exists_cons_of_ne_nil (Nat.toDigits_ne_nil (n := n) (b := 10))
  have inside : ∀ d ∈ Nat.toDigits 10 n, d.isDigit := fun d =>
    Nat.isDigit_of_mem_toDigits (by omega) (by omega)
  obtain ⟨hex, value⟩ := Text.digits_of_toDigits (by omega : 1 < 10) (by omega) n
  have few : (Nat.toDigits 10 n).length ≤ 19 :=
    (Nat.length_toDigits_le_iff (by omega) (by omega)).2 (by omega)
  have starts : OutcomeAt (String.ofList (Nat.toDigits 10 n)) file 0 0 := by
    rw [digits]
    exact outcomeAt_digit (inside c (digits ▸ List.mem_cons_self)) cs file
  have read := (outcomes_decimal starts (by simp) Nat.toDigits_ne_nil (run_nil inside)
    (not_startsHex inside) not_startsPart_nil).1
  rwa [if_pos (by omega), ← Text.digitsValue_eq_positional 10 hex, value, integerAt,
    if_pos fits] at read

theorem outcomes_toDigits_hex {x : Char} (mark : x = 'x' ∨ x = 'X') :
    outcomes (String.ofList ('0' :: x :: Nat.toDigits 16 n)) file 0 =
      .ok ⟨.literal .integer, String.ofList ('0' :: x :: Nat.toDigits 16 n), some (.integer n),
        ⟨.start, file⟩⟩ := by
  obtain ⟨inside, value⟩ := Text.digits_of_toDigits (by omega : 1 < 16) (by omega) n
  have starts := outcomeAt_digit (c := '0') rfl (x :: Nat.toDigits 16 n) file
  have read := (outcomes_hexadecimal starts mark (by simp) (run_nil inside)).1
  rwa [if_neg Nat.toDigits_ne_nil, ← Text.digitsValue_eq_positional 16 inside, value, integerAt,
    if_pos fits] at read

end

/-- Integers are exact. A decimal literal and a hexadecimal one have the value of their digits if it
is at most the largest signed 64-bit integer, and are refused as a whole if it is not, if there are
no digits behind the mark, or if there are too many decimal ones; reading goes on behind the digits
in all these cases. So the integers up to the limit and no others are values. -/
theorem integers_exact {text file : String} {i p : Nat} (starts : OutcomeAt text file i p) :
    (∀ run behind, text.toList.drop p = run ++ behind → run ≠ [] →
      Run Char.isDigit run behind → ¬ StartsHex (run ++ behind) → ¬ StartsPart behind →
      outcomes text file i = (if run.length ≤ 4300 then
          integerAt ⟨.ofOffset text.toList p, file⟩ run (Text.positional 10 run)
        else .error (.tooManyDigits run.length)) ∧
      (Cursor.ofText file text).behind (i + 1) =
        (Cursor.ofText file text).skip (p + run.length)) ∧
    (∀ x run behind, x = 'x' ∨ x = 'X' → text.toList.drop p = '0' :: x :: (run ++ behind) →
      Run Text.isHexDigit run behind →
      outcomes text file i = (if run = [] then
          .error (.lexical .malformedHex ⟨.ofOffset text.toList p, file⟩)
        else integerAt ⟨.ofOffset text.toList p, file⟩ ('0' :: x :: run)
          (Text.positional 16 run)) ∧
      (Cursor.ofText file text).behind (i + 1) =
        (Cursor.ofText file text).skip (p + (2 + run.length))) ∧
    (∀ j t, outcomes text file j = .ok t → t.kind = .literal .integer →
      ∃ n : Nat, n ≤ 2 ^ 63 - 1 ∧ t.value = some (.integer n)) ∧
    ∀ n ≤ 2 ^ 63 - 1,
      outcomes (String.ofList (Nat.toDigits 10 n)) file 0 =
        .ok ⟨.literal .integer, String.ofList (Nat.toDigits 10 n), some (.integer n),
          ⟨.start, file⟩⟩ ∧
      ∀ x, x = 'x' ∨ x = 'X' → outcomes (String.ofList ('0' :: x :: Nat.toDigits 16 n)) file 0 =
        .ok ⟨.literal .integer, String.ofList ('0' :: x :: Nat.toDigits 16 n), some (.integer n),
          ⟨.start, file⟩⟩ := by
  refine ⟨fun run behind cut nonempty => outcomes_decimal starts cut nonempty,
    fun x run behind mark => outcomes_hexadecimal starts mark, fun j t => integer_in_range,
    fun n fits => ⟨outcomes_toDigits fits file, fun x => outcomes_toDigits_hex fits file⟩⟩

/-- The largest integer in digits of both cases, and the one behind it. -/
theorem integers_exact_limit :
    outcomes "a 0X7fffFFFFffffFFFF.b" "it.ares" 1 =
      .ok ⟨.literal .integer, "0X7fffFFFFffffFFFF", some (.integer 9223372036854775807),
        ⟨⟨1, 3, 2⟩, "it.ares"⟩⟩ ∧
    outcomes "-9223372036854775808" "it.ares" 1 =
      .error (.lexical .numberTooLarge ⟨⟨1, 2, 1⟩, "it.ares"⟩) := by
  have first : OutcomeAt "a 0X7fffFFFFffffFFFF.b" "it.ares" 1 2 := ⟨by decide, by decide +kernel, by decide +kernel⟩
  have second : OutcomeAt "-9223372036854775808" "it.ares" 1 1 := ⟨by decide, by decide +kernel, by decide +kernel⟩
  constructor
  · have digits : Run Text.isHexDigit "7fffFFFFffffFFFF".toList ".b".toList :=
      run_takeWhile Text.isHexDigit "7fffFFFFffffFFFF.b".toList
    exact ((integers_exact first).2.1 'X' _ _ (.inr rfl) rfl digits).1
  · have digits : ∀ d ∈ "9223372036854775808".toList, d.isDigit := List.all_eq_true.1 rfl
    exact ((integers_exact second).1 _ [] rfl (by simp) (run_nil digits) (not_startsHex digits)
      not_startsPart_nil).1

end AresSyntax
