import AresSyntax.Proofs.Grammar.Derivation

/-!
Where phrases start and end.

* `Derives.suffix`, `Derives.length_lt`: what stands behind a phrase is the end of the tokens, and
  most phrases have a token;
* `Derives.starts`, `Derives.not_starts`: the kinds of token that a phrase can start with;
* `Derives.def_paren`: an expression that starts with `def` goes on with a parenthesis.
-/
namespace AresSyntax

theorem suffix_of_cons_suffix {t : Token} {ts us : List Token} (h : t :: ts <:+ us) : ts <:+ us :=
  (List.suffix_cons t ts).trans h

theorem Newlines.suffix {ts rest : List Token} (h : Newlines ts rest) : rest <:+ ts := by
  induction h with
  | none => exact List.suffix_refl _
  | next _ _ ih => exact ih.trans (List.suffix_cons _ _)

theorem Newlines.trans {ts us rest : List Token} (h : Newlines ts us) (h' : Newlines us rest) :
    Newlines ts rest := by
  induction h with
  | none => exact h'
  | next newline _ ih => exact .next newline (ih h')

theorem Separator.suffix {ts rest : List Token} (h : Separator ts rest) : rest <:+ ts := by
  cases h with
  | semicolon _ others => exact others.suffix.trans (List.suffix_cons _ _)
  | newline _ others => exact others.suffix.trans (List.suffix_cons _ _)

/-- The kind of the first token. Where no token is left the text has ended. -/
def firstKind : List Token → Kind
  | [] => .endOfText
  | t :: _ => t.kind

@[simp] theorem firstKind_cons (t : Token) (ts : List Token) : firstKind (t :: ts) = t.kind := rfl

/-- Line ends separate statements if there are some. -/
theorem Newlines.separator {ts rest : List Token} (h : Newlines ts rest)
    (hk : firstKind ts ≠ firstKind rest) : Separator ts rest := by
  cases h with
  | none => exact absurd rfl hk
  | next newline others => exact .newline newline others

/-- Whether a phrase has at least one token. -/
def Phrase.solid : Phrase → Bool
  | statements | clauses | otherwise | pairs | list _ => false
  | items p => p.solid
  | _ => true

/-- The kinds that an atom can start with. -/
def Kind.startsAtom : Kind → Bool
  | literal _ | keyword .defWord | mark .openParen | mark .openBracket | mark .openBrace => true
  | _ => false

/-- The kinds that an expression can start with. -/
def Kind.startsExpression (k : Kind) : Bool := k.startsAtom || k.isUnaryOperator

/-- The words that only statements start with. -/
def Kind.isStatementWord : Kind → Bool
  | keyword .ifWord | keyword .whileWord | keyword .untilWord | keyword .forWord
  | keyword .importWord | keyword .debugWord | keyword .returnWord => true
  | _ => false

/-- The kinds that a statement can start with. -/
def Kind.startsStatement (k : Kind) : Bool := k.isStatementWord || k.startsExpression

/-- The kinds that a phrase can start with, where that says something. -/
def Phrase.startsWith (k : Kind) : Phrase → Bool
  | statement => k.startsStatement
  | expression | assignment | level _ | operand | pair => k.startsExpression
  | trailed | atom => k.startsAtom
  | name => k = .literal .ident
  | parameters => k = .mark .openParen
  | items p => p.startsWith k
  | _ => true

variable {limit : Option Nat} {p : Phrase} {c : Context} {ts rest : List Token} {us : List Tree}

theorem Derives.suffix (h : Derives limit p c ts rest us) : rest <:+ ts := by
  induction h <;> grind [→ Newlines.suffix, → Separator.suffix,
    List.suffix_refl, List.suffix_cons_iff, → suffix_of_cons_suffix]

theorem Derives.length_lt (h : Derives limit p c ts rest us) (hp : p.solid) :
    rest.length < ts.length := by
  induction h <;>
    grind [Phrase.solid, → List.IsSuffix.length_le, → Derives.suffix, → Newlines.suffix]

theorem Derives.starts (h : Derives limit p c ts rest us) : p.startsWith (firstKind ts) := by
  induction h <;> grind [Phrase.startsWith, Kind.startsStatement, Kind.isStatementWord,
    Kind.startsExpression, Kind.startsAtom, Kind.isUnaryOperator, firstKind_cons]

theorem Derives.not_starts (h : Derives limit p c ts rest us) {k : Kind}
    (hk : p.startsWith k = false) : firstKind ts ≠ k := by
  intro same
  have starts := h.starts
  simp [same, hk] at starts

/-- Where no statement can start, statements are none. -/
theorem Derives.no_statements (h : Derives limit .statements c ts rest us)
    (hk : (firstKind ts).startsStatement = false) : us = [] ∧ rest = ts := by
  cases h with
  | noStatement => exact ⟨rfl, rfl⟩
  | lastStatement last => exact absurd rfl (last.not_starts hk)
  | nextStatement first => exact absurd rfl (first.not_starts hk)

/-- Statements start behind the line ends. -/
theorem Derives.statements_not_newline (h : Derives limit .statements c ts rest us)
    (hk : firstKind rest ≠ .mark .newline) : firstKind ts ≠ .mark .newline := by
  cases h with
  | noStatement => exact hk
  | lastStatement last => exact last.not_starts rfl
  | nextStatement first => exact first.not_starts rfl

/-- Whether a phrase is an expression or a part of one on the same level of nesting. -/
def Phrase.isValue : Phrase → Bool
  | expression | assignment | level _ | operand | trailed | atom => true
  | _ => false

/-- A `def` at the start of an expression is that of a subroutine without a name. -/
theorem Derives.def_paren (h : Derives limit p c ts rest us) (hp : p.isValue)
    (hd : firstKind ts = .keyword .defWord) : firstKind ts.tail = .mark .openParen := by
  induction h <;> grind [Phrase.isValue, firstKind, → Derives.starts, Phrase.startsWith]

end AresSyntax
