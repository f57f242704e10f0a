import Mathlib.Data.List.Forall2
import AresSyntax.Proofs.Grammar.Spans
import AresSyntax.Proofs.Program.Respacing

/-!
What separates statements. It does not matter how many line ends stand in a row, and a line end may
stand wherever a semicolon does.

* `HasLexemes`: the texts with some lexemes;
* `Token.Reflows`, `Lexeme.Reflows`: a line end in the place of a semicolon;
* `DerivesProgram.reflow`: a program stays the same program;
* `separators_interchangeable`: other rows of line ends, and line ends for semicolons.
-/
namespace AresSyntax

/-! ## Texts with given lexemes -/

/-- The text can be read, and its tokens have these lexemes. -/
def HasLexemes (text file : String) (ls : List Lexeme) : Prop :=
  ∃ ts, tokenize text file = .ok ts ∧ ts.map Token.lexeme = ls

/-- Lexemes that are shown were read. -/
theorem hasLexemes_of_shown {text file : String} {ls : List Lexeme}
    (h : (tokenize text file).toOption.map (·.map Token.lexeme) = some ls) :
    HasLexemes text file ls := by
  cases read : tokenize text file with
  | error f =>
    rw [read] at h
    cases h
  | ok ts =>
    rw [read] at h
    exact ⟨ts, read, Option.some.inj h⟩

namespace Lexeme

/-- The lexemes of a whole text: they can be spelled, and the end comes last. -/
inductive Spellable : List Lexeme → Prop
  | ending : Spellable [⟨.endOfText, "", none⟩]
  | next {l : Lexeme} {ls : List Lexeme} (usable : l.Usable) (others : Spellable ls) :
      Spellable (l :: ls)

theorem usable_lineEnd : lineEnd.Usable := usable_ofMark .newline

theorem spellable_row {n : Nat} {ls : List Lexeme} :
    Spellable (List.replicate n lineEnd ++ ls) ↔ Spellable ls := by
  induction n with
  | zero => rfl
  | succ n ih =>
    rw [List.replicate_succ, List.cons_append, ← ih]
    constructor
    · rintro (_ | ⟨_, others⟩)
      exact others
    · exact .next usable_lineEnd

theorem Spellable.exists_text {ls : List Lexeme} (h : Spellable ls) (file : String) :
    ∃ text, HasLexemes text file ls := by
  obtain ⟨ms, usable, rfl⟩ : ∃ ms : List Lexeme, (∀ l ∈ ms, l.Usable) ∧
      ls = ms ++ [⟨.endOfText, "", none⟩] := by
    induction h with
    | ending => exact ⟨[], nofun, rfl⟩
    | @next l ls usable _ ih =>
      obtain ⟨ms, others, rfl⟩ := ih
      exact ⟨l :: ms, List.forall_mem_cons.2 ⟨usable, others⟩, rfl⟩
  obtain ⟨ts, location, read, lexemes⟩ := tokenize_spellAll usable file
  exact ⟨_, _, read, by rw [List.map_append, lexemes]; rfl⟩

/-- The lexeme `m` in the place of `l`: the same, or a line end in the place of a semicolon. -/
def Reflows (l m : Lexeme) : Prop := m = l ∨ l.kind = .mark .semicolon ∧ m = lineEnd

end Lexeme

open Lexeme (Spellable)

variable {text file text' file' : String} {ls ms : List Lexeme} {limit : Option Nat}

theorem HasLexemes.spellable (h : HasLexemes text file ls) : Spellable ls := by
  obtain ⟨us, read, rfl⟩ := h
  obtain ⟨ts, e, rfl, lists⟩ := tokenize_lists.1 read
  have ending : e.lexeme = ⟨.endOfText, "", none⟩ := by
    have last : outcomes text file ts.length = .ok e := lists.reads _ _ (by simp)
    rw [outcomes_atEnd last lists.last]
    rfl
  have first : ∀ i t, ts[i]? = some t → outcomes text file i = .ok t := by
    intro i t ht
    refine lists.reads i t ?_
    rw [List.getElem?_append_left (List.getElem?_eq_some_iff.1 ht).1, ht]
  have usable := List.forall_mem_map.1 (Lexeme.usable_of_outcomes first lists.others)
  clear read lists first
  induction ts with
  | nil =>
    rw [List.nil_append, List.map_singleton, ending]
    exact .ending
  | cons t ts ih =>
    obtain ⟨first, others⟩ := List.forall_mem_cons.1 usable
    exact .next first (ih others)

theorem Respaced.eq_nil (h : Respaced [] ms) : ms = [] := by
  generalize none : [] = ls at h
  cases h with
  | nil => rfl
  | same => cases none
  | row => simp at none

theorem Respaced.spellable (h : Respaced ls ms) (all : Spellable ls) : Spellable ms := by
  induction h with
  | nil => exact all
  | same others ih =>
    cases all with
    | ending => exact others.eq_nil ▸ .ending
    | next usable all => exact .next usable (ih all)
  | row _ ih => exact Lexeme.spellable_row.2 (ih (Lexeme.spellable_row.1 all))

theorem spellable_of_reflows (h : List.Forall₂ Lexeme.Reflows ls ms) (all : Spellable ls) :
    Spellable ms := by
  induction h with
  | nil => exact all
  | cons first others ih =>
    cases all with
    | ending =>
      obtain rfl | ⟨semicolon, -⟩ := first
      · cases others
        exact .ending
      · cases semicolon
    | next usable all =>
      obtain rfl | ⟨-, rfl⟩ := first
      · exact .next usable (ih all)
      · exact .next Lexeme.usable_lineEnd (ih all)

/-! ## Line ends for semicolons -/

/-- The token `u` in the place of `t`: the same, or a line end in the place of a semicolon. -/
def Token.Reflows (t u : Token) : Prop :=
  u = t ∨ t.kind = .mark .semicolon ∧ u.kind = .mark .newline ∧ u.location = t.location

theorem start_reflows {ts us : List Token} (h : List.Forall₂ Token.Reflows ts us) :
    Span.start us = Span.start ts := by
  cases h with
  | nil => rfl
  | cons first _ =>
    obtain rfl | ⟨-, -, same⟩ := first
    · rfl
    · exact congrArg some same

/-- No phrase takes a semicolon where a line end would not do as well. -/
theorem compositional_reflows : Span.Compositional fun D ts rest =>
    ∀ us, List.Forall₂ Token.Reflows ts us →
      ∃ rest', List.Forall₂ Token.Reflows rest rest' ∧ D us rest' where
  nil us same := ⟨us, same, rfl⟩
  token present other := by
    rintro _ (_ | ⟨rfl | ⟨semicolon, -⟩, others⟩)
    · exact ⟨_, others, rfl⟩
    · exact absurd semicolon other
  semicolon kind := by
    rintro _ (_ | ⟨rfl | ⟨-, newline, -⟩, others⟩)
    · exact ⟨_, others, .inl ⟨_, kind, rfl⟩⟩
    · exact ⟨_, others, .inr ⟨_, newline, rfl⟩⟩
  cons first others := by
    intro us same
    obtain ⟨vs, same, held⟩ := first us same
    obtain ⟨rest', behind, more⟩ := others vs same
    exact ⟨rest', behind, vs, held, more⟩
  imp h f := by
    intro us same
    obtain ⟨rest', behind, held⟩ := h us same
    exact ⟨rest', behind, f us rest' (start_reflows same) held⟩

/-- A program with line ends in the place of semicolons has the same tree. -/
theorem DerivesProgram.reflow {ts us : List Token} {u : Tree} (h : DerivesProgram limit ts u)
    (same : List.Forall₂ Token.Reflows ts us) : DerivesProgram limit us u := by
  cases h with
  | intro lines inner ending =>
    obtain ⟨us₁, same₁, lines⟩ := lines.compose compositional_reflows us same
    obtain ⟨_, behind, inner⟩ := inner.compose compositional_reflows us₁ same₁
    obtain ⟨x, us, rfl, place⟩ := Span.exists_cons_of_start (start_reflows same)
    obtain _ | ⟨rfl | ⟨semicolon, -⟩, ⟨⟩⟩ := behind
    · exact place ▸ .intro lines inner ending
    · rw [ending] at semicolon
      cases semicolon

/-- The tokens of a text at other places derive its tree at these. -/
theorem derivesProgram_recast (φ : Recast) {us : List Token} {u : Tree}
    (read : tokenize text file = .ok us) (h : parse ⟨limit, none⟩ text file = .ok u) :
    DerivesProgram limit (recast φ us) (recast φ u) := by
  obtain ⟨r, before, found⟩ := exists_reader_recast φ read
  have found := found limit
  rw [h] at found
  cases run : Parse.program ⟨limit, none⟩ r with
  | error f r' =>
    rw [run] at found
    cases found
  | ok w r' =>
    rw [run] at found
    obtain rfl : w = recast φ u := Except.ok.inj found
    exact before.tokens ▸ Parse.program_derives before.toAt run

theorem reflows_placed (h : List.Forall₂ Lexeme.Reflows ls ms) (l : Location) :
    List.Forall₂ Token.Reflows (placed l ls) (placed l ms) := by
  refine List.forall₂_map_left_iff.2 (List.forall₂_map_right_iff.2 (h.imp ?_))
  rintro _ _ (rfl | ⟨semicolon, rfl⟩)
  · exact .inl rfl
  · exact .inr ⟨semicolon, rfl, rfl⟩

/-- A text that is parsed is parsed with line ends in the place of semicolons as well. -/
theorem parse_of_reflows {u : Tree} (h : HasLexemes text file ls) (h' : HasLexemes text' file' ms)
    (reflows : List.Forall₂ Lexeme.Reflows ls ms) (parsed : parse ⟨limit, none⟩ text file = .ok u) :
    ∃ v, parse ⟨limit, none⟩ text' file' = .ok v ∧
      ∀ l : Location, recast (.gather l) v = recast (.gather l) u := by
  obtain ⟨us, read, rfl⟩ := h
  obtain ⟨vs, read', rfl⟩ := h'
  have found (l : Location) : ∃ v, parse ⟨limit, none⟩ text' file' = .ok v ∧
      recast (.gather l) v = recast (.gather l) u := by
    have derived := derivesProgram_recast (.gather l) read parsed
    rw [recast_gather] at derived
    have other := derived.reflow (reflows_placed reflows l)
    rw [← recast_gather] at other
    exact parse_of_recast read' other
  obtain ⟨v, parsed', -⟩ := found ⟨.start, ""⟩
  refine ⟨v, parsed', fun l => ?_⟩
  obtain ⟨w, parsed'', same⟩ := found l
  rw [parsed'] at parsed''
  cases parsed''
  exact same

/-! ## Both -/

/-- Lexemes with other rows of line ends in the place of some are those of texts, which are all
parsed like the first one: to the same tree up to locations, or the same token is refused in the
same words. Where the first text is parsed, so are those that have line ends in the place of some
semicolons, and to the same tree up to locations. -/
theorem separators_interchangeable (h : HasLexemes text file ls) :
    (∀ ms, Respaced ls ms → (∃ text', HasLexemes text' file ms) ∧
      ∀ text' file', HasLexemes text' file' ms → ∀ limit,
        FoundAlike (parse ⟨limit, none⟩ text file) (parse ⟨limit, none⟩ text' file')) ∧
    ∀ ms, List.Forall₂ Lexeme.Reflows ls ms → (∃ text', HasLexemes text' file ms) ∧
      ∀ text' file', HasLexemes text' file' ms → ∀ limit u,
        parse ⟨limit, none⟩ text file = .ok u → ∃ v, parse ⟨limit, none⟩ text' file' = .ok v ∧
          ∀ l : Location, recast (.gather l) v = recast (.gather l) u := by
  constructor
  · intro ms respaced
    refine ⟨(respaced.spellable h.spellable).exists_text file, fun text' file' h' limit => ?_⟩
    obtain ⟨us, read, rfl⟩ := h
    obtain ⟨vs, read', rfl⟩ := h'
    exact parse_respaced limit read read' respaced
  · intro ms reflows
    exact ⟨(spellable_of_reflows reflows h.spellable).exists_text file,
      fun text' file' h' limit u => parse_of_reflows h h' reflows⟩

/-- A comment and an empty line behind a line end, and a line end for a semicolon. -/
theorem separators_interchangeable_lines :
    FoundAlike (parse .standard "a;b\nc" "f.ares") (parse .standard "a;b # d\n\nc" "f.ares") ∧
    ∃ u v, parse .standard "a;b\nc" "f.ares" = .ok u ∧ u.render = "(BLOCK a b c)" ∧
      parse .standard "a\nb\nc" "f.ares" = .ok v ∧
      ∀ l : Location, recast (.gather l) v = recast (.gather l) u := by
  let name (text : String) : Lexeme := ⟨.literal .ident, text, none⟩
  let last : Lexeme := ⟨.endOfText, "", none⟩
  have lexemes : HasLexemes "a;b\nc" "f.ares"
      [name "a", .ofMark .semicolon, name "b", .lineEnd, name "c", last] :=
    hasLexemes_of_shown (by decide +kernel)
  have spaced : HasLexemes "a;b # d\n\nc" "f.ares"
      [name "a", .ofMark .semicolon, name "b", .lineEnd, .lineEnd, name "c", last] :=
    hasLexemes_of_shown (by decide +kernel)
  have broken : HasLexemes "a\nb\nc" "f.ares"
      [name "a", .lineEnd, name "b", .lineEnd, name "c", last] :=
    hasLexemes_of_shown (by decide +kernel)
  obtain ⟨rows, semicolons⟩ := separators_interchangeable lexemes
  have respaced := (rows _ (.same <| .same <| .same <| .row (n := 0) (m := 1) <| .same <|
    .same .nil)).2 _ _ spaced (some 256)
  have shown : (parse .standard "a;b\nc" "f.ares").toOption.map Tree.render =
      some "(BLOCK a b c)" := by decide +kernel
  obtain ⟨u, parsed, render⟩ := exists_tree_of_render shown
  obtain ⟨v, parsed', same⟩ := (semicolons _ (.cons (.inl rfl) <| .cons (.inr ⟨rfl, rfl⟩) <|
    .cons (.inl rfl) <| .cons (.inl rfl) <| .cons (.inl rfl) <| .cons (.inl rfl) .nil)).2 _ _
    broken (some 256) u parsed
  exact ⟨respaced, u, v, parsed, render, parsed', same⟩

end AresSyntax
