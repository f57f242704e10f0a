import AresSyntax.Proofs.Grammar.First

/-!
Phrases as rows of tokens and smaller phrases. What rows of spans have from their parts, all phrases
have.

* `Span`, `Span.row`: what the tokens before some others are, and such spans one after the other;
* `Span.Compositional`: the properties that a row of spans has from its parts;
* `Derives.compose`: phrases have all such properties.
-/
namespace AresSyntax

/-- A way to say what some tokens are, up to those that stand behind them. -/
abbrev Span := List Token → List Token → Prop

namespace Span

/-- The token `t`. -/
def token (t : Token) : Span := fun ts rest => ts = t :: rest

/-- A token of kind `k`. -/
def sign (k : Kind) : Span := fun ts rest => ∃ t, t.kind = k ∧ ts = t :: rest

/-- Spans one after the other. -/
def row : List Span → Span
  | [] => Eq
  | D :: Ds => fun ts rest => ∃ us, D ts us ∧ row Ds us rest

/-- The place where some tokens start, if there are any. -/
def start (ts : List Token) : Option Location := ts.head?.map Token.location

theorem exists_cons_of_start {ts us : List Token} {t : Token} (h : start ts = start (t :: us)) :
    ∃ t' ts', ts = t' :: ts' ∧ t'.location = t.location := by
  cases ts with
  | nil => cases h
  | cons t' ts' => exact ⟨t', ts', rfl, Option.some.inj h⟩

/-- Holds for a property `Q` of spans, of the tokens that they are and of those behind them, that a
row of spans has if its parts have it. A phrase takes no end token, and a semicolon only where a
line end could stand instead. What follows from a span may also depend on the place where it starts.
-/
structure Compositional (Q : Span → List Token → List Token → Prop) : Prop where
  nil {rest : List Token} : Q (row []) rest rest
  token {t : Token} {rest : List Token} (present : t.kind ≠ .endOfText)
    (other : t.kind ≠ .mark .semicolon) : Q (Span.token t) (t :: rest) rest
  semicolon {t : Token} {rest : List Token} (kind : t.kind = .mark .semicolon) :
    Q (fun ts rest => sign (.mark .semicolon) ts rest ∨ sign (.mark .newline) ts rest) (t :: rest)
      rest
  cons {D : Span} {Ds : List Span} {ts us rest : List Token} (first : Q D ts us)
    (others : Q (row Ds) us rest) : Q (row (D :: Ds)) ts rest
  imp {D E : Span} {ts rest : List Token} (h : Q D ts rest)
    (f : ∀ ts' rest', start ts' = start ts → D ts' rest' → E ts' rest') : Q E ts rest

variable {Q : Span → List Token → List Token → Prop}

theorem Compositional.taken (law : Compositional Q) {t : Token} {k : Kind} {rest : List Token}
    (kind : t.kind = k) (present : k ≠ .endOfText := by simp)
    (other : k ≠ .mark .semicolon := by simp) : Q (Span.token t) (t :: rest) rest :=
  law.token (kind ▸ present) (kind ▸ other)

theorem Compositional.taken_or (law : Compositional Q) {t : Token} {k k' : Kind}
    {rest : List Token} (kind : t.kind = k ∨ t.kind = k')
    (present : k ≠ .endOfText ∧ k' ≠ .endOfText := by simp)
    (other : k ≠ .mark .semicolon ∧ k' ≠ .mark .semicolon := by simp) :
    Q (Span.token t) (t :: rest) rest :=
  kind.elim (law.taken · present.1 other.1) (law.taken · present.2 other.2)

theorem Compositional.started (law : Compositional Q) {D : Span} {ts rest : List Token}
    (h : Q D ts rest) : Q (fun ts' rest' => D ts' rest' ∧ start ts' = start ts) ts rest :=
  law.imp h fun _ _ same held => ⟨held, same⟩

end Span

open AresSyntax.Span

variable {Q : Span → List Token → List Token → Prop} {ts rest : List Token}

theorem Newlines.compose (law : Compositional Q) (h : Newlines ts rest) : Q Newlines ts rest := by
  induction h with
  | none => exact law.imp law.nil fun _ _ _ same => same ▸ .none
  | next newline _ ih =>
    refine law.imp (law.cons (law.taken newline) <| law.cons ih law.nil) ?_
    rintro _ _ - ⟨_, rfl, _, others, rfl⟩
    exact .next newline others

theorem Separator.compose (law : Compositional Q) (h : Separator ts rest) :
    Q Separator ts rest := by
  cases h with
  | semicolon semicolon others =>
    refine law.imp (law.cons (law.semicolon semicolon) <|
      law.cons (others.compose law) law.nil) ?_
    rintro _ _ - ⟨_, ⟨_, semicolon, rfl⟩ | ⟨_, newline, rfl⟩, _, others, rfl⟩
    · exact .semicolon semicolon others
    · exact .newline newline others
  | newline newline others =>
    refine law.imp (law.cons (law.taken newline) <| law.cons (others.compose law) law.nil) ?_
    rintro _ _ - ⟨_, rfl, _, others, rfl⟩
    exact .newline newline others

/-- Phrases have all properties that rows of spans have from their parts. The place where the tokens
start is that of the node of a conditional's clauses, also where there are none. -/
theorem Derives.compose (law : Compositional Q) {limit : Option Nat} {p : Phrase} {c : Context}
    {us : List Tree} (h : Derives limit p c ts rest us) : Q (Derives limit p c · · us) ts rest := by
  induction h with
  | noStatement => exact law.imp law.nil fun _ _ _ same => same ▸ .noStatement
  | lastStatement _ last => exact law.imp last fun _ _ _ => .lastStatement
  | nextStatement _ separator _ first others =>
    refine law.imp (law.cons first <| law.cons (separator.compose law) <|
      law.cons others law.nil) ?_
    rintro _ _ - ⟨_, first, _, separator, _, others, rfl⟩
    exact .nextStatement first separator others
  | declaration start ident _ _ params body =>
    refine law.imp (law.cons (law.taken start) <| law.cons (law.taken ident) <| law.cons params <|
      law.cons body law.nil) ?_
    rintro _ _ - ⟨_, rfl, _, rfl, _, params, _, body, rfl⟩
    exact .declaration start ident params body
  | conditional begin _ _ _ _ condition body further last =>
    refine law.imp (law.cons (law.taken begin) <| law.cons condition <| law.cons body <|
      law.cons (law.started further) <| law.cons last law.nil) ?_
    rintro _ _ - ⟨_, rfl, _, condition, _, body, _, ⟨further, same⟩, _, last, rfl⟩
    obtain ⟨x, ts, rfl, place⟩ := exists_cons_of_start same
    exact place ▸ .conditional begin condition body further last
  | loop start _ _ condition body =>
    refine law.imp (law.cons (law.taken_or start) <| law.cons condition <| law.cons body law.nil) ?_
    rintro _ _ - ⟨_, rfl, _, condition, _, body, rfl⟩
    exact .loop start condition body
  | iteration start ident inWord _ _ range body =>
    refine law.imp (law.cons (law.taken start) <| law.cons (law.taken ident) <|
      law.cons (law.taken inWord) <| law.cons range <| law.cons body law.nil) ?_
    rintro _ _ - ⟨_, rfl, _, rfl, _, rfl, _, range, _, body, rfl⟩
    exact .iteration start ident inWord range body
  | command start _ value =>
    refine law.imp (law.cons (law.taken_or start) <| law.cons value law.nil) ?_
    rintro _ _ - ⟨_, rfl, _, value, rfl⟩
    exact .command start value
  | leave inside start =>
    exact law.imp (law.taken start) fun _ _ _ same => same ▸ .leave inside start
  | leaveWith inside start _ value =>
    refine law.imp (law.cons (law.taken start) <| law.cons value law.nil) ?_
    rintro _ _ - ⟨_, rfl, _, value, rfl⟩
    exact .leaveWith inside start value
  | value _ value => exact law.imp value fun _ _ _ => .value
  | noClause => exact law.imp law.nil fun _ _ _ same => same ▸ .noClause
  | nextClause start _ _ _ condition body others =>
    refine law.imp (law.cons (law.taken start) <| law.cons condition <| law.cons body <|
      law.cons others law.nil) ?_
    rintro _ _ - ⟨_, rfl, _, condition, _, body, _, others, rfl⟩
    exact .nextClause start condition body others
  | noOtherwise => exact law.imp law.nil fun _ _ _ same => same ▸ .noOtherwise
  | otherwise start _ body =>
    refine law.imp (law.cons (law.taken start) <| law.cons body law.nil) ?_
    rintro _ _ - ⟨_, rfl, _, body, rfl⟩
    exact .otherwise start body
  | block before opening lines within _ closing inner =>
    refine law.imp (law.cons (before.compose law) <| law.cons (law.taken opening) <|
      law.cons (lines.compose law) <| law.cons inner <| law.cons (law.taken closing) law.nil) ?_
    rintro _ _ - ⟨_, before, _, rfl, _, lines, _, inner, _, rfl, rfl⟩
    exact .block before opening lines within inner closing
  | parameters opening before _ behind closing names =>
    refine law.imp (law.cons (law.taken opening) <| law.cons (before.compose law) <|
      law.cons names <| law.cons (behind.compose law) <| law.cons (law.taken closing) law.nil) ?_
    rintro _ _ - ⟨_, rfl, _, before, _, names, _, behind, _, rfl, rfl⟩
    exact .parameters opening before names behind closing
  | name ident => exact law.imp (law.taken ident) fun _ _ _ same => same ▸ .name ident
  | expression within _ inner => exact law.imp inner fun _ _ _ => .expression within
  | plain _ value => exact law.imp value fun _ _ _ => .plain
  | assign _ assignable sign lines _ target value =>
    refine law.imp (law.cons target <| law.cons (law.taken sign) <|
      law.cons (lines.compose law) <| law.cons value law.nil) ?_
    rintro _ _ - ⟨_, target, _, rfl, _, lines, _, value, rfl⟩
    exact .assign target assignable sign lines value
  | tighter _ inner => exact law.imp inner fun _ _ _ => .tighter
  | fold _ sign rank lines _ left right =>
    refine law.imp (law.cons left <| law.cons (law.taken sign) <| law.cons (lines.compose law) <|
      law.cons right law.nil) ?_
    rintro _ _ - ⟨_, left, _, rfl, _, lines, _, right, rfl⟩
    exact .fold left sign rank lines right
  | tightest _ inner => exact law.imp inner fun _ _ _ => .tightest
  | negation sign lines _ inner =>
    refine law.imp (law.cons (law.taken sign) <| law.cons (lines.compose law) <|
      law.cons inner law.nil) ?_
    rintro _ _ - ⟨_, rfl, _, lines, _, inner, rfl⟩
    exact .negation sign lines inner
  | signed sign lines _ inner =>
    refine law.imp (law.cons (law.taken_or sign) <| law.cons (lines.compose law) <|
      law.cons inner law.nil) ?_
    rintro _ _ - ⟨_, rfl, _, lines, _, inner, rfl⟩
    exact .signed sign lines inner
  | unsigned _ inner => exact law.imp inner fun _ _ _ => .unsigned
  | untrailed _ inner => exact law.imp inner fun _ _ _ => .untrailed
  | subscript _ opening before _ behind closing base index =>
    refine law.imp (law.cons base <| law.cons (law.taken opening) <|
      law.cons (before.compose law) <| law.cons index <| law.cons (behind.compose law) <|
      law.cons (law.taken closing) law.nil) ?_
    rintro _ _ - ⟨_, base, _, rfl, _, before, _, index, _, behind, _, rfl, rfl⟩
    exact .subscript base opening before index behind closing
  | call _ opening before _ behind closing callee arguments =>
    refine law.imp (law.cons callee <| law.cons (law.taken opening) <|
      law.cons (before.compose law) <| law.cons arguments <| law.cons (behind.compose law) <|
      law.cons (law.taken closing) law.nil) ?_
    rintro _ _ - ⟨_, callee, _, rfl, _, before, _, arguments, _, behind, _, rfl, rfl⟩
    exact .call callee opening before arguments behind closing
  | literal literal => exact law.imp (law.taken literal) fun _ _ _ same => same ▸ .literal literal
  | array opening before _ behind closing elements =>
    refine law.imp (law.cons (law.taken opening) <| law.cons (before.compose law) <|
      law.cons elements <| law.cons (behind.compose law) <|
      law.cons (law.taken closing) law.nil) ?_
    rintro _ _ - ⟨_, rfl, _, before, _, elements, _, behind, _, rfl, rfl⟩
    exact .array opening before elements behind closing
  | hash opening before _ behind closing elements =>
    refine law.imp (law.cons (law.taken opening) <| law.cons (before.compose law) <|
      law.cons elements <| law.cons (behind.compose law) <|
      law.cons (law.taken closing) law.nil) ?_
    rintro _ _ - ⟨_, rfl, _, before, _, elements, _, behind, _, rfl, rfl⟩
    exact .hash opening before elements behind closing
  | group opening before _ behind closing inner =>
    refine law.imp (law.cons (law.taken opening) <| law.cons (before.compose law) <|
      law.cons inner <| law.cons (behind.compose law) <| law.cons (law.taken closing) law.nil) ?_
    rintro _ _ - ⟨_, rfl, _, before, _, inner, _, behind, _, rfl, rfl⟩
    exact .group opening before inner behind closing
  | subroutine start _ _ params body =>
    refine law.imp (law.cons (law.taken start) <| law.cons params <| law.cons body law.nil) ?_
    rintro _ _ - ⟨_, rfl, _, params, _, body, rfl⟩
    exact .subroutine start params body
  | noPair => exact law.imp law.nil fun _ _ _ same => same ▸ .noPair
  | lastPair _ last => exact law.imp last fun _ _ _ => .lastPair
  | nextPair _ comma lines _ first others =>
    refine law.imp (law.cons first <| law.cons (law.taken comma) <|
      law.cons (lines.compose law) <| law.cons others law.nil) ?_
    rintro _ _ - ⟨_, first, _, rfl, _, lines, _, others, rfl⟩
    exact .nextPair first comma lines others
  | pair _ arrow lines _ key value =>
    refine law.imp (law.cons key <| law.cons (law.taken arrow) <| law.cons (lines.compose law) <|
      law.cons value law.nil) ?_
    rintro _ _ same ⟨_, key, _, rfl, _, lines, _, value, rfl⟩
    obtain ⟨x, ts, rfl, place⟩ := exists_cons_of_start same
    exact place ▸ .pair key arrow lines value
  | emptyList => exact law.imp law.nil fun _ _ _ same => same ▸ .emptyList
  | someItems _ items => exact law.imp items fun _ _ _ => .someItems
  | lastItem _ last => exact law.imp last fun _ _ _ => .lastItem
  | nextItem _ comma lines _ first others =>
    refine law.imp (law.cons first <| law.cons (law.taken comma) <|
      law.cons (lines.compose law) <| law.cons others law.nil) ?_
    rintro _ _ - ⟨_, first, _, rfl, _, lines, _, others, rfl⟩
    exact .nextItem first comma lines others

end AresSyntax
