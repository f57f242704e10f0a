import AresSyntax.Proofs.Program.Layout
import AresSyntax.Proofs.Reader.Respacing

/-!
Texts that differ in how many line ends stand in a row. No rule of the grammar tells one from
several, so their programs give the same up to locations.

* `Grammar.Blind`: the grammars whose rules give the same for readers abreast;
* `Grammar.reading_blind`, `Parse.programBy_blind`: all rules, and programs;
* `Respaced`: lexemes with other rows of line ends in the place of some;
* `FoundAlike`, `parse_respaced`: the same tree up to locations, or the same refused.
-/
namespace AresSyntax

/-- Holds for grammars whose rules give the same for readers abreast. -/
def Grammar.Blind (again : Grammar) : Prop := ∀ g k, Parse.BlindAt k (again g)

theorem Parse.BlindAt.commaSeparated {α : Type} {k : Kind} {item : Parse α}
    (advancing : (nextItem? item).Advancing) (h : ∀ j, BlindAt j item) :
    BlindAt k (Parse.commaSeparated item) := by
  have further (j : Kind) : BlindAt j (nextItem? item) :=
    .check (fun comma => .bind (.advanceLines (comma ▸ nofun)) fun _ _ =>
      .bind (h _) fun _ _ => .pure) .pure
  exact .bind (h k) fun _ _ => .bind (.collect advancing further) fun _ _ => .pure

namespace Grammar
open Parse

variable {limit : Option Nat} {again : Grammar} {k : Kind}

theorem separator_blind {otherwise : Parse Unit} (h : BlindAt k otherwise) :
    BlindAt k (separator otherwise) :=
  .check (fun semicolon => .bind (.advanceLines (semicolon ▸ nofun)) fun _ _ => .pure)
    (.check (fun _ => .skipNewlines) h)

theorem blockSeparator_blind : BlindAt k blockSeparator :=
  separator_blind (.check (fun _ => .pure) .refuse)

theorem identifier_blind {e : Expectation} : BlindAt k (identifier e) :=
  .bind (.expect nofun) fun _ _ => .pure

theorem parameters_blind : BlindAt k parameters := by
  refine .bind (.expect nofun) fun opening _ => .bind .skipNewlines fun _ _ => ?_
  have rest (names : List Tree) (j : Kind) : BlindAt j (do
      skipNewlines
      let _ ← expect (.mark .closeParen) .closeParameters
      return Tree.node (Label.subParams.token opening.location) names) :=
    .bind .skipNewlines fun _ _ => .bind (.expect nofun) fun _ _ => .pure
  have advancing : (nextItem? (identifier .parameter)).Advancing :=
    nextItem?_advancing rfl (@identifier_yields none .parameter)
  exact .check (fun _ => .bind .pure rest)
    (.bind (.commaSeparated advancing fun _ => identifier_blind) rest)

section
variable (hs : again.Sound limit) (h : again.Blind)
include h

theorem blockStatement?_blind : BlindAt k (blockStatement? again) :=
  .current fun _ => .ite (fun _ => .pure) fun _ =>
    .bind (h .statement _) fun _ _ => .bind blockSeparator_blind fun _ _ => .pure

theorem group_blind (other : k ≠ .mark .newline) : BlindAt k (group again) :=
  .bind (.advanceLines other) fun _ _ => .bind (h .expression _) fun _ _ =>
    .bind .skipNewlines fun _ _ => .bind (.expect nofun) fun _ _ => .pure

theorem hashElement?_blind : BlindAt k (hashElement? again) := by
  have element : BlindAt k (hashElement again) :=
    .current fun _ => .bind (h .expression _) fun _ _ => .bind (.expect nofun) fun _ _ =>
      .bind .skipNewlines fun _ _ => .bind (h .expression _) fun _ _ => .pure
  exact .check (fun _ => .pure) (.bind element fun _ _ => .pure)

theorem nextHashElement?_blind : BlindAt k (nextHashElement? again) :=
  .check (fun comma => .bind (.advanceLines (comma ▸ nofun)) fun _ _ => hashElement?_blind h) .pure

theorem subscript_blind (other : k ≠ .mark .newline) (base : Tree) :
    BlindAt k (subscript again base) :=
  .bind (.advanceLines other) fun _ _ => .bind (h .expression _) fun _ _ =>
    .bind .skipNewlines fun _ _ => .bind (.expect nofun) fun _ _ => .pure

include hs

theorem block_blind : BlindAt k (block limit again) :=
  .bind .skipNewlines fun _ _ => .bind (.expect nofun) fun _ _ => .bind .skipNewlines fun _ _ =>
    .bind (.nested fun _ => .collect (blockStatement?_takes hs).advancing fun _ =>
      blockStatement?_blind h) fun _ _ =>
    .bind (.expect nofun) fun _ _ => .pure

theorem parametersAndBody_blind : BlindAt k (parametersAndBody limit again) :=
  .bind parameters_blind fun _ _ =>
    .bind (.inSubroutine fun _ => block_blind hs h) fun _ _ => .pure

theorem subroutineDeclaration_blind (other : k ≠ .mark .newline) :
    BlindAt k (subroutineDeclaration limit again) :=
  .bind (.advance other) fun _ _ => .bind identifier_blind fun _ _ =>
    .bind (parametersAndBody_blind hs h) fun _ _ => .pure

theorem subroutineLiteral_blind (other : k ≠ .mark .newline) :
    BlindAt k (subroutineLiteral limit again) :=
  .bind (.advance other) fun _ _ => .bind (parametersAndBody_blind hs h) fun _ _ => .pure

theorem expressions_blind (closing : Mark) (e : Expectation) (other : closing ≠ .newline) :
    BlindAt k (expressions again closing e) := by
  have rest (items : List Tree) (j : Kind) : BlindAt j (do
      skipNewlines
      let _ ← expect (.mark closing) e
      return items) :=
    .bind .skipNewlines fun _ _ => .bind (.expect (by simpa using other)) fun _ _ => .pure
  exact .check (fun _ => .bind .pure rest)
    (.bind (.commaSeparated (nextItem?_advancing rfl (hs .expression)) (h .expression)) rest)

theorem array_blind (other : k ≠ .mark .newline) : BlindAt k (array again) :=
  .bind (.advanceLines other) fun _ _ =>
    .bind (expressions_blind hs h _ _ nofun) fun _ _ => .pure

theorem hashElements_blind : BlindAt k (hashElements again) := by
  refine .bind (hashElement?_blind h) fun first _ => ?_
  cases first with
  | none => exact .pure
  | some first =>
    exact .bind (.collect (nextHashElement?_advancing hs) fun _ => nextHashElement?_blind h)
      fun _ _ => .pure

theorem hash_blind (other : k ≠ .mark .newline) : BlindAt k (hash again) :=
  .bind (.advanceLines other) fun _ _ => .bind (hashElements_blind hs h) fun _ _ =>
    .bind .skipNewlines fun _ _ => .bind (.expect nofun) fun _ _ => .pure

theorem atom_blind : BlindAt k (atom limit again) := by
  refine .current fun t => ?_
  split <;> rename_i kind
  · exact .bind (.advance (kind ▸ nofun)) fun _ _ => .pure
  · exact array_blind hs h (kind ▸ nofun)
  · exact hash_blind hs h (kind ▸ nofun)
  · exact group_blind h (kind ▸ nofun)
  · exact subroutineLiteral_blind hs h (kind ▸ nofun)
  · exact .refuse

theorem call_blind (other : k ≠ .mark .newline) (callee : Tree) :
    BlindAt k (call again callee) :=
  .bind (.advanceLines other) fun _ _ =>
    .bind (expressions_blind hs h _ _ nofun) fun _ _ => .pure

theorem trailer?_blind (base : Tree) : BlindAt k (trailer? again base) := by
  refine .current fun t => ?_
  split <;> rename_i kind
  · exact .bind (subscript_blind h (kind ▸ nofun) base) fun _ _ => .pure
  · exact .bind (call_blind hs h (kind ▸ nofun) base) fun _ _ => .pure
  · exact .pure

theorem operand_blind : BlindAt k (operand limit again) := by
  refine .current fun t => .ite (fun sign => ?_) fun _ => ?_
  · have other : t.kind ≠ .mark .newline := fun line => by
      rw [line] at sign
      cases sign
    exact .bind (.advanceLines other) fun _ _ => .bind (h .operand _) fun _ _ => .pure
  · exact .bind (atom_blind hs h) fun base _ =>
      .iterate (trailer?_advancing hs) (fun base _ => trailer?_blind hs h base) base

end

theorem fold?_blind {least : Nat} {right : Nat → Parse Tree} (positive : 0 < least)
    (h : ∀ n, least ≤ n → n < Precedence.unary.rank → ∀ j, BlindAt j (right (n + 1)))
    (left : Tree) : BlindAt k (fold? least right left) := by
  refine .current fun op => .ite (fun tight => ?_) fun _ => .pure
  obtain ⟨o, kind⟩ := Kind.binary_of_rank (Nat.lt_of_lt_of_le positive tight)
  exact .bind (.advanceLines (kind.1 ▸ nofun)) fun _ _ =>
    .bind (h _ tight (Kind.rank_lt _) _) fun _ _ => .pure

/-- By induction on the levels, with as many as the operators above `least` have. -/
theorem climb_blind {first : Parse Tree} (yields : Yields limit .operand first)
    (h : ∀ j, BlindAt j first) {levels least : Nat} (positive : 0 < least)
    (most : least ≤ Precedence.unary.rank) (enough : Precedence.unary.rank ≤ levels + least) :
    BlindAt k (climb first levels least) := by
  induction levels generalizing k least with
  | zero => exact h k
  | succ levels ih =>
    have advancing : ∀ left, (fold? least (climb first levels) left).Advancing :=
      fold?_advancing positive fun n _ _ =>
        climb_yields yields (by omega) (by omega) (by omega)
    have folds (left : Tree) (j : Kind) : BlindAt j (fold? least (climb first levels) left) :=
      fold?_blind positive (fun n _ _ _ => ih (by omega) (by omega) (by omega)) left
    exact .bind (h k) fun left _ => .iterate advancing folds left

section
variable (hs : again.Sound limit) (h : again.Blind)
include hs h

theorem assignment_blind : BlindAt k (assignment limit again) := by
  have left : BlindAt k (binary limit again) :=
    climb_blind (operand_yields hs) (fun _ => operand_blind hs h) (by decide) (by decide)
      (by decide)
  refine .bind left fun _ _ => .current fun op => .ite (fun sign => ?_) fun _ => .pure
  obtain ⟨o, kind⟩ := Kind.isAssignment_iff.1 sign
  exact .ite (fun _ => .bind (.advanceLines (kind ▸ nofun)) fun _ _ =>
    .bind (h .assignment _) fun _ _ => .pure) fun _ => .refuse

theorem expression_blind : BlindAt k (expression limit again) :=
  .nested fun _ => assignment_blind hs h

theorem guarded_blind (other : k ≠ .mark .newline) : BlindAt k (guarded limit again) :=
  .bind (.advance other) fun _ _ => .bind (h .expression _) fun _ _ =>
    .bind (block_blind hs h) fun _ _ => .pure

theorem elifClauses_blind : BlindAt k (elifClauses limit again) := by
  have clause (j : Kind) : BlindAt j (elifClause? limit again) :=
    .bind (.accept nofun) fun _ _ => .ite (fun _ => .bind (h .expression _) fun _ _ =>
      .bind (block_blind hs h) fun _ _ => .pure) fun _ => .pure
  exact .current fun _ => .bind (.collect (elifClause?_advancing hs) clause) fun _ _ => .pure

theorem conditional_blind (other : k ≠ .mark .newline) :
    BlindAt k (conditional limit again) := by
  have last (j : Kind) : BlindAt j (elseBlock limit again) :=
    .bind (.accept nofun) fun _ _ =>
      .ite (fun _ => .bind (block_blind hs h) fun _ _ => .pure) fun _ => .pure
  refine .bind (guarded_blind hs h other) fun first _ => ?_
  cases first
  exact .bind (elifClauses_blind hs h) fun _ _ => .bind (last _) fun _ _ => .pure

theorem iteration_blind (other : k ≠ .mark .newline) : BlindAt k (iteration limit again) :=
  .bind (.advance other) fun _ _ => .bind identifier_blind fun _ _ =>
    .bind (.expect nofun) fun _ _ => .bind (h .expression _) fun _ _ =>
    .bind (block_blind hs h) fun _ _ => .pure

omit hs in
theorem commanded_blind (other : k ≠ .mark .newline) : BlindAt k (commanded again) :=
  .bind (.advance other) fun _ _ => .bind (h .expression _) fun _ _ => .pure

omit hs in
theorem returned_blind (other : k ≠ .mark .newline) : BlindAt k (returned again) := by
  have rest : BlindAt k (do
      let start ← advance
      if (← current).kind.endsReturn then return Tree.leaf start
      return Tree.node start [← again .expression]) :=
    .bind (.advance other) fun _ _ => .current fun _ => .ite (fun _ => .pure) fun _ =>
      .bind (h .expression _) fun _ _ => .pure
  exact .inside rest .refuseFirst

theorem statement_blind : BlindAt k (statement limit again) := by
  refine .current fun t => ?_
  split <;> rename_i kind
  · exact .next (kind ▸ nofun) (kind ▸ nofun) (expression_blind hs h)
      (subroutineDeclaration_blind hs h (kind ▸ nofun))
  · exact conditional_blind hs h (kind ▸ nofun)
  · exact guarded_blind hs h (kind ▸ nofun)
  · exact guarded_blind hs h (kind ▸ nofun)
  · exact iteration_blind hs h (kind ▸ nofun)
  · exact commanded_blind h (kind ▸ nofun)
  · exact commanded_blind h (kind ▸ nofun)
  · exact returned_blind h (kind ▸ nofun)
  · exact expression_blind hs h

theorem rule_blind : (rule limit again).Blind
  | .statement, _ => statement_blind hs h
  | .expression, _ => expression_blind hs h
  | .assignment, _ => assignment_blind hs h
  | .operand, _ => operand_blind hs h

end

/-- No rule tells one line end from several, no matter how many rules may wait. -/
theorem reading_blind (limit : Option Nat) (stack : Nat) : (reading limit stack).Blind := by
  induction stack with
  | zero => exact fun _ _ => .refuse
  | succ stack ih => exact rule_blind (reading_sound stack) ih

end Grammar

namespace Parse

theorem programBy_blind {k : Kind} (limit : Option Nat) (stack : Nat) :
    BlindAt k (programBy (Grammar.reading limit stack)) := by
  have statement (j : Kind) :
      BlindAt j (programStatement? (Grammar.reading limit stack)) :=
    .check (fun _ => .pure) (.bind (Grammar.reading_blind limit stack .statement _) fun _ _ =>
      .bind (Grammar.separator_blind (.bind (.expect nofun) fun _ _ => .pure)) fun _ _ => .pure)
  have sound : (Grammar.reading limit stack).Sound limit := Grammar.reading_sound stack
  have advancing := (programStatement?_takes sound).advancing
  exact .current fun _ =>
    .bind (.bind .skipNewlines fun _ _ => .collect advancing statement) fun _ _ => .pure

variable {limit : Option Nat}

theorem Matched.answer {α : Type} {c : Context} {x y : EStateM.Result ParseFault Reader α}
    (h : Matched c x y) : answer x = answer y := by
  cases h <;> rfl

theorem program_eq_programBy {r : Reader} {n : Nat} (top : r.depth = 0) (room : r.work < n) :
    program ⟨limit, none⟩ r = programBy (Grammar.reading limit n) r := by
  have told : programBy (Grammar.reading limit n) (r.recast .same) = _ :=
    programBy_recast top room (Nat.le_refl n)
  rw [Reader.recast_same, recastResult_same Tree.recast_same] at told
  exact (program_run top room).trans told.symm

/-- The rules of both programs may wait as often as the longer one needs. -/
theorem program_matched {r s : Reader} (h : Reader.Abreast .top r s) :
    Matched .top (program ⟨limit, none⟩ r) (program ⟨limit, none⟩ s) := by
  have top : r.depth = 0 := congrArg Context.depth h.left.context
  have top' : s.depth = 0 := congrArg Context.depth h.right.context
  have room : r.work < max r.work s.work + 1 := Nat.lt_succ_of_le (Nat.le_max_left _ _)
  have room' : s.work < max r.work s.work + 1 := Nat.lt_succ_of_le (Nat.le_max_right _ _)
  rw [program_eq_programBy top room, program_eq_programBy top' room']
  exact programBy_blind limit _ h rfl

end Parse

/-! ## Texts -/

variable {text file text' file' : String} {us vs : List Token} {limit : Option Nat}

/-- What is found in a text, recast, is what a reader before the recast tokens finds. -/
theorem exists_reader_recast (φ : Recast) (read : tokenize text file = .ok us) :
    ∃ r : Reader, r.Before .top (recast φ us) ∧ ∀ limit,
      Parse.answer (Parse.program ⟨limit, none⟩ r) = recast φ (parse ⟨limit, none⟩ text file) := by
  obtain ⟨r, started, before⟩ := Reader.start_of_tokenize read
  refine ⟨r.recast φ, before.recast φ, fun limit => ?_⟩
  rw [Parse.recast_program, Parse.answer_recast, ← Reader.program_answer, parse, started]

/-- The line end. -/
def Lexeme.lineEnd : Lexeme := .ofMark .newline

/-- Other rows of line ends, none of them empty, in the place of some rows. -/
inductive Respaced : List Lexeme → List Lexeme → Prop
  | nil : Respaced [] []
  | same {l : Lexeme} {ls ms : List Lexeme} (others : Respaced ls ms) :
      Respaced (l :: ls) (l :: ms)
  | row {n m : Nat} {ls ms : List Lexeme} (others : Respaced ls ms) :
      Respaced (List.replicate (n + 1) .lineEnd ++ ls) (List.replicate (m + 1) .lineEnd ++ ms)

theorem Respaced.squeeze_placed {ls ms : List Lexeme} (h : Respaced ls ms) (l : Location) :
    squeeze (placed l ls) = squeeze (placed l ms) := by
  induction h with
  | nil => rfl
  | same _ ih => simp only [placed_cons, squeeze, ih]
  | row _ ih =>
    have row (n : Nat) : placed l (List.replicate (n + 1) .lineEnd) =
        List.replicate (n + 1) (Lexeme.lineEnd.token l) := List.map_replicate
    rw [placed_append, placed_append, row, row, squeeze_row rfl, squeeze_row rfl, ih]

/-- The same is found in two texts, wherever they have it: the same tree up to locations, or the
same error, with its code and in the same words, at tokens with the same lexeme. -/
inductive FoundAlike : Except ParseFault Tree → Except ParseFault Tree → Prop
  | tree {u v : Tree} (same : ∀ l : Location, recast (.gather l) v = recast (.gather l) u) :
      FoundAlike (.ok u) (.ok v)
  | refused {e : GrammarError} {t t' : Token} (lexeme : t'.lexeme = t.lexeme)
      (words : (e.diagnostic t').message = (e.diagnostic t).message) :
      FoundAlike (.error (.grammar e t)) (.error (.grammar e t'))

theorem Recast.relocates_gather (l : Location) : (gather l).Relocates :=
  ⟨fun _ _ => rfl, fun _ _ => rfl⟩

/-- What is the same at one place is alike wherever it is found. -/
theorem foundAlike_of_gather {x y : Except ParseFault Tree}
    (same : ∀ l : Location, recast (.gather l) y = recast (.gather l) x)
    (read : ∀ f, x ≠ .error (.reading f)) : FoundAlike x y := by
  have moved (l : Location) :=
    (Recast.relocates_gather l).outcome (Recast.relocates_gather l) (same l) read
  obtain ⟨u, v, rfl, rfl, -⟩ | ⟨e, t, t', rfl, rfl, -, lexeme⟩ := moved ⟨.start, ""⟩
  · exact .tree fun l => Except.ok.inj (same l)
  · exact .refused lexeme (e.message_of_lexeme lexeme)

/-- Texts whose lexemes differ in nothing but the rows of line ends are parsed alike. -/
theorem parse_respaced (limit : Option Nat) (h : tokenize text file = .ok us)
    (h' : tokenize text' file' = .ok vs)
    (same : Respaced (us.map Token.lexeme) (vs.map Token.lexeme)) :
    FoundAlike (parse ⟨limit, none⟩ text file) (parse ⟨limit, none⟩ text' file') := by
  refine foundAlike_of_gather (fun l => ?_) (parse_ne_reading h)
  obtain ⟨r, before, found⟩ := exists_reader_recast (.gather l) h
  obtain ⟨s, before', found'⟩ := exists_reader_recast (.gather l) h'
  rw [recast_gather] at before before'
  have abreast : Reader.Abreast .top r s := ⟨_, _, before, before', same.squeeze_placed l⟩
  rw [← found, ← found']
  exact (Parse.program_matched abreast).answer.symm

end AresSyntax
