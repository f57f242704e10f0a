import AresSyntax.Proofs.Scan.Spelling
import AresSyntax.Proofs.Tree.Shape

/-!
Trees written out again. Every operand, condition, callee, subscript base and assignment target is
put in parentheses, whether it needs them or not, and the statements of a block stand on lines. The
value of an assignment is put in parentheses as well, or stands without any.

* `Tree.spelled`: the lexemes that a tree is written with;
* `Tree.spelling`: the text of a whole program;
* `Token.Standard`: the tokens that the nodes of trees have;
* `Tree.usable_spelled`: every lexeme of a tree is read again from its spelling;
* `Tree.tokenize_spelling`: the tokens of a program that is written out.
-/
namespace AresSyntax
namespace Lexeme

def ofMark (m : Mark) : Lexeme := { kind := .mark m, text := m.spelling }

def ofKeyword (k : Keyword) : Lexeme := { kind := .keyword k, text := k.spelling }

def minus : Lexeme := { kind := .binary .minus, text := BinaryOp.minus.spelling }

/-- Some lexemes between two brackets. -/
def enclosed (opening : Mark) (ls : List Lexeme) (closing : Mark) : List Lexeme :=
  ofMark opening :: ls ++ [ofMark closing]

/-- Some lexemes in parentheses. -/
def grouped (ls : List Lexeme) : List Lexeme := enclosed .openParen ls .closeParen

/-- Some lexemes, in parentheses where they are wanted. -/
def groupedIf (parens : Bool) (ls : List Lexeme) : List Lexeme := if parens then grouped ls else ls

/-- The parts one after the other, with a sign between any two of them. -/
def separated (sign : Mark) (parts : List (List Lexeme)) : List Lexeme :=
  [ofMark sign].intercalate parts

/-- The parts of a list between two brackets. -/
def listed (opening : Mark) (parts : List (List Lexeme)) (closing : Mark) : List Lexeme :=
  enclosed opening (separated .comma parts) closing

/-- The further clauses of a conditional, of which each is a condition and a block. -/
def clauses : List (List Lexeme) → List Lexeme
  | e :: b :: parts => ofKeyword .elifWord :: (grouped e ++ b) ++ clauses parts
  | _ => []

/-- The last block of a conditional, if there is one. -/
def otherwise : List (List Lexeme) → List Lexeme
  | [] => []
  | b :: _ => ofKeyword .elseWord :: b

end Lexeme

namespace Token

/-- Holds for the tokens that the nodes of trees have: a label shows its mnemonic, the negation
shows the minus sign, and any other token has a lexeme that texts have. -/
def Standard (t : Token) : Prop :=
  match t.kind with
  | .label l => t.text = l.mnemonic ∧ t.value = none
  | .negate => t.text = BinaryOp.minus.spelling ∧ t.value = none
  | _ => t.lexeme.Genuine

end Token

namespace Kind
open Lexeme

/-- The lexemes that a node of a kind is written with, from the lexeme of its token and those of its
children. The lexeme of the token is among them unless the kind is a label or the negation. -/
def spelledOver (parens : Bool) (k : Kind) (own : Lexeme) (parts : List (List Lexeme)) :
    List Lexeme :=
  match k, parts with
  | .literal _, _ => [own]
  | .binary _, [l, e] => grouped l ++ own :: grouped e
  | .assign _, [l, e] => grouped l ++ own :: groupedIf parens e
  | .negate, [e] => minus :: grouped e
  | .mark _, [e] => own :: grouped e
  | .label .subscript, [l, e] => grouped l ++ enclosed .openBracket e .closeBracket
  | .label .call, l :: es => grouped l ++ listed .openParen es .closeParen
  | .label .arrayDecl, es => listed .openBracket es .closeBracket
  | .label .hashDecl, es => listed .openBrace es .closeBrace
  | .label .hashElem, [k, v] => k ++ ofMark .arrow :: v
  | .label .subLiteral, [ps, b] => ofKeyword .defWord :: (ps ++ b)
  | .label .subDecl, [n, ps, b] => ofKeyword .defWord :: (n ++ ps ++ b)
  | .label .subParams, ns => listed .openParen ns .closeParen
  | .label .block, us => enclosed .openBrace (separated .newline us) .closeBrace
  | .label .elifClauses, cs => clauses cs
  | .keyword .ifWord, e :: b :: cs :: os => own :: (grouped e ++ b ++ cs ++ otherwise os)
  | .keyword .forWord, [n, e, b] => own :: (n ++ ofKeyword .inWord :: e ++ b)
  | .keyword .whileWord, [e, b] | .keyword .untilWord, [e, b] => own :: (grouped e ++ b)
  | .keyword _, es => own :: es.flatten
  | _, _ => []

end Kind

namespace Tree

mutual

/-- The lexemes that a tree is written with. -/
def spelled (parens : Bool) : Tree → List Lexeme
  | node t cs => t.kind.spelledOver parens t.lexeme (spelledAll parens cs)

/-- The lexemes of each of several trees. -/
def spelledAll (parens : Bool) : List Tree → List (List Lexeme)
  | [] => []
  | c :: cs => c.spelled parens :: spelledAll parens cs

end

@[simp] theorem spelledAll_eq (parens : Bool) (cs : List Tree) :
    spelledAll parens cs = cs.map (spelled parens) := by
  induction cs with
  | nil => rfl
  | cons c cs ih => exact congrArg (c.spelled parens :: ·) ih

/-- The lexemes of a whole program: its statements on lines, without braces around them. -/
def lines (parens : Bool) (t : Tree) : List Lexeme :=
  Lexeme.separated .newline (t.children.map (spelled parens))

/-- A whole program as a text. -/
def spelling (parens : Bool) (t : Tree) : String := String.ofList (spellAll (t.lines parens))

end Tree

namespace Lexeme

theorem restored_ofMark (m : Mark) : (ofMark m).Restored := by
  cases m <;> exact read_of_shown (by decide +kernel)

theorem restored_ofKeyword (k : Keyword) : (ofKeyword k).Restored := by
  cases k <;> exact read_of_shown (by decide +kernel)

theorem restored_minus : minus.Restored :=
  read_of_shown (by decide +kernel)

/-- Holds for the lexemes that are read again and are not the end of a text. -/
def Usable (l : Lexeme) : Prop := l.Restored ∧ l.kind ≠ .endOfText

theorem usable_ofMark (m : Mark) : (ofMark m).Usable := ⟨restored_ofMark m, Kind.noConfusion⟩

theorem usable_ofKeyword (k : Keyword) : (ofKeyword k).Usable :=
  ⟨restored_ofKeyword k, Kind.noConfusion⟩

theorem usable_minus : minus.Usable := ⟨restored_minus, Kind.noConfusion⟩

/-- What is read of a text before its end can be read again. -/
theorem usable_of_outcomes {text file : String} {ts : List Token}
    (first : ∀ i t, ts[i]? = some t → outcomes text file i = .ok t)
    (others : ∀ t ∈ ts, t.kind ≠ .endOfText) : ∀ l ∈ ts.map Token.lexeme, l.Usable := by
  refine List.forall_mem_map.2 fun t ht => ⟨?_, others t ht⟩
  obtain ⟨i, hi⟩ := List.mem_iff_getElem?.1 ht
  exact Genuine.restored ⟨text, file, i, t, first i t hi, rfl⟩

variable {ls : List Lexeme} {parts : List (List Lexeme)}

theorem usable_enclosed {o e : Mark} (h : ∀ l ∈ ls, l.Usable) :
    ∀ l ∈ enclosed o ls e, l.Usable := by
  simp only [enclosed, List.cons_append, List.forall_mem_cons, List.forall_mem_append]
  exact ⟨usable_ofMark o, h, usable_ofMark e, by simp⟩

theorem usable_groupedIf (parens : Bool) (h : ∀ l ∈ ls, l.Usable) :
    ∀ l ∈ groupedIf parens ls, l.Usable := by
  cases parens with
  | true => exact usable_enclosed h
  | false => exact h

theorem usable_separated {m : Mark} (h : ∀ p ∈ parts, ∀ l ∈ p, l.Usable) :
    ∀ l ∈ separated m parts, l.Usable := by
  induction parts with
  | nil => simp [separated]
  | cons p parts ih =>
    obtain ⟨first, others⟩ := List.forall_mem_cons.1 h
    cases parts with
    | nil => simpa [separated] using first
    | cons q parts =>
      rw [separated, List.intercalate_cons_cons, List.append_assoc]
      simp only [List.forall_mem_append, List.forall_mem_singleton]
      exact ⟨first, usable_ofMark m, ih others⟩

theorem usable_clauses (h : ∀ p ∈ parts, ∀ l ∈ p, l.Usable) : ∀ l ∈ clauses parts, l.Usable := by
  fun_induction clauses parts with
  | case1 e b parts ih =>
    simp only [List.forall_mem_cons] at h
    obtain ⟨condition, body, others⟩ := h
    simp only [List.cons_append, List.forall_mem_cons, List.forall_mem_append]
    exact ⟨usable_ofKeyword .elifWord, ⟨usable_enclosed condition, body⟩, ih others⟩
  | case2 => simp

theorem usable_otherwise (h : ∀ p ∈ parts, ∀ l ∈ p, l.Usable) :
    ∀ l ∈ otherwise parts, l.Usable := by
  cases parts with
  | nil => simp [otherwise]
  | cons b parts =>
    exact List.forall_mem_cons.2 ⟨usable_ofKeyword .elseWord, h b List.mem_cons_self⟩

end Lexeme

namespace Token
open Lexeme

variable {t : Token} {parts : List (List Lexeme)}

/-- The lexeme of a token that is no label and no negation is one that texts have. -/
theorem Standard.usable (h : t.Standard) (noEnd : t.kind ≠ .endOfText)
    (real : t.kind.isImaginary = false) : t.lexeme.Usable := by
  refine ⟨Genuine.restored ?_, noEnd⟩
  unfold Standard at h
  split at h
  · rename_i same
    simp [same, Kind.isImaginary] at real
  · rename_i same
    simp [same, Kind.isImaginary] at real
  · exact h

/-- In every case there are fixed lexemes, that of the token and those of the parts. -/
theorem usable_spelledOver (parens : Bool) (h : t.Standard)
    (below : ∀ p ∈ parts, ∀ l ∈ p, l.Usable) :
    ∀ l ∈ t.kind.spelledOver parens t.lexeme parts, l.Usable := by
  have own : t.kind ≠ .endOfText ∧ t.kind.isImaginary = false → t.lexeme.Usable :=
    fun ⟨noEnd, real⟩ => h.usable noEnd real
  have lists (o e : Mark) (ps : List (List Lexeme)) (h : ∀ p ∈ ps, ∀ l ∈ p, l.Usable) :
    ∀ l ∈ listed o ps e, l.Usable := usable_enclosed (usable_separated h)
  unfold Kind.spelledOver
  split
  all_goals
    rename_i kind
    simp only [kind, Kind.isImaginary, reduceCtorEq, ne_eq, not_false_eq_true, and_self,
      forall_const, List.forall_mem_cons, List.forall_mem_append, grouped] at below own ⊢
    grind [usable_enclosed, usable_groupedIf, usable_separated, usable_clauses, usable_otherwise,
      usable_ofMark, usable_ofKeyword, usable_minus, List.mem_flatten]

end Token

namespace Tree
open Lexeme

theorem usable_spelled (parens : Bool) {t : Tree} (h : ∀ n ∈ t.walk, n.token.Standard) :
    ∀ l ∈ t.spelled parens, l.Usable := by
  induction t using Tree.induction with
  | node t cs ih =>
    have below : ∀ p ∈ cs.map (spelled parens), ∀ l ∈ p, l.Usable := by
      intro p hp
      obtain ⟨c, hc, rfl⟩ := List.mem_map.1 hp
      exact ih c hc fun n hn => h n (List.mem_cons_of_mem _ (mem_walkAll.2 ⟨c, hc, hn⟩))
    rw [spelled, spelledAll_eq]
    exact Token.usable_spelledOver parens (h _ List.mem_cons_self) below

/-- The tokens of a spelled program have the lexemes of its statements, and line ends between. -/
theorem tokenize_spelling (parens : Bool) {t : Tree} (h : ∀ n ∈ t.walk, n.token.Standard)
    (file : String) :
    ∃ ts location, tokenize (t.spelling parens) file = .ok (ts ++ [.atEnd location]) ∧
      ts.map Token.lexeme = t.lines parens := by
  refine tokenize_spellAll (usable_separated ?_) file
  intro p hp
  obtain ⟨c, hc, rfl⟩ := List.mem_map.1 hp
  obtain ⟨token, cs⟩ := t
  exact usable_spelled parens fun n hn => h n (List.mem_cons_of_mem _ (mem_walkAll.2 ⟨c, hc, hn⟩))

end Tree
/-- A lexeme as a token at a place. -/
def Lexeme.token (l : Lexeme) (location : Location) : Token := ⟨l.kind, l.text, l.value, location⟩

@[simp] theorem Lexeme.location_token (l : Lexeme) (location : Location) :
    (l.token location).location = location := rfl

/-- Some lexemes as tokens that are all at one place. -/
def placed (location : Location) (ls : List Lexeme) : List Token := ls.map (·.token location)

/-- Something stands at the place. -/
def StartsAt (location : Location) (ts : List Token) : Prop :=
  ∃ t ts', ts = t :: ts' ∧ t.location = location

section
variable {location : Location}

@[simp] theorem placed_nil : placed location [] = [] := rfl

@[simp] theorem placed_cons (l : Lexeme) (ls : List Lexeme) :
    placed location (l :: ls) = l.token location :: placed location ls := rfl

@[simp] theorem placed_append (ls ms : List Lexeme) :
    placed location (ls ++ ms) = placed location ls ++ placed location ms := List.map_append

theorem startsAt_cons (location : Location) (l : Lexeme) (ts : List Token) :
    StartsAt location (l.token location :: ts) := ⟨_, _, rfl, rfl⟩

theorem StartsAt.append {rest : List Token} (h : StartsAt location rest) (ls : List Lexeme) :
    StartsAt location (placed location ls ++ rest) := by
  cases ls with
  | nil => exact h
  | cons l ls => exact startsAt_cons location l _

end

end AresSyntax
