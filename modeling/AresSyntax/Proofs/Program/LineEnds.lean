import Mathlib.Data.List.Forall2
import Mathlib.Data.List.Nodup
import AresSyntax.Proofs.Scan.Returns
import AresSyntax.Proofs.Program.Layout

/-!
Sources with a carriage return before every line end. They have the same tokens in the same lines
and columns, and are parsed alike, if no string literal has a line end in it.

* `returned`: the source with the carriage returns;
* `PlainStrings`: the string literals of a source have no line ends in them;
* `Recast.blur`, `ParsedLevel`: parsed alike up to offsets, and up to the columns of line ends;
* `tokenize_returned`: the tokens of such a source, and what it is parsed to.
-/
namespace AresSyntax
open Text Lexeme

/-- The text with a carriage return before every line end. -/
def returned (text : String) : String := String.ofList (addReturns text.toList)

/-- Holds if no string literal among the tokens of a text has a line end in it. -/
def PlainStrings (text file : String) (us : List Token) : Prop :=
  ∀ i t, us[i]? = some t → t.kind = .literal .string → '\n' ∉ slice text file i t

/-! ## Tokens -/

/-- The characters of a token are those that its lexeme is prescribed for. -/
theorem exists_slice {text file : String} {i : Nat} {t : Token}
    (h : outcomes text file i = .ok t) : ∃ p behind, OutcomeAt text file i p ∧
      text.toList.drop p = slice text file i t ++ behind ∧
      Prescribed (slice text file i t) behind t.lexeme := by
  obtain ⟨p, cs, behind, starts, place, cut, prescribed, next⟩ := exists_prescribed h
  have inside : p + cs.length ≤ text.length := by
    have size := congrArg List.length cut
    have room := starts.1
    rw [List.length_drop, String.length_toList, List.length_append] at size
    omega
  have same : slice text file i t = cs := by
    rw [slice, next, Cursor.ofText_skip inside, place]
    simp only [Position.ofOffset, Int.toNat_natCast, List.extract_eq_take_drop,
      Nat.add_sub_cancel_left, cut, List.take_left]
  rw [same]
  exact ⟨p, behind, starts, cut, prescribed⟩

namespace Cursor

variable {c c' : Cursor} {ts : List Token} {t e : Token}

/-- Holds before a token that no return is put into. -/
def PlainNext (c : Cursor) (t : Token) : Prop :=
  (Trivia.read c.rest).unclosed = none ∧ ∃ slice behind,
    (c.skip (Trivia.read c.rest).length).rest = slice ++ behind ∧
    Prescribed slice behind t.lexeme ∧ (t.kind ≠ .mark .newline → '\n' ∉ slice)

theorem Lists.returned (h : c.Lists ts e) (level : Returned c c')
    (plain : ∀ i t, (ts ++ [e])[i]? = some t → (c.behind i).PlainNext t) :
    ∃ vs e', c'.Lists vs e' ∧ List.Forall₂ Token.Level (ts ++ [e]) (vs ++ [e']) := by
  induction ts generalizing c c' with
  | nil =>
    obtain ⟨last, read⟩ := lists_nil.1 h
    obtain ⟨closed, slice, behind, cut, prescribed, noLine⟩ := plain 0 e rfl
    obtain ⟨u, v, first, first', same, -⟩ := level.read closed cut prescribed noLine
    obtain rfl : e = u := Except.ok.inj (read.symm.trans first)
    have last' : v.kind = .endOfText := (congrArg Lexeme.kind same.lexeme).trans last
    exact ⟨[], v, lists_nil.2 ⟨last', first'⟩, .cons same .nil⟩
  | cons t ts ih =>
    obtain ⟨other, read, later⟩ := lists_cons.1 h
    obtain ⟨closed, slice, behind, cut, prescribed, noLine⟩ := plain 0 t rfl
    obtain ⟨u, v, first, first', same, next⟩ := level.read closed cut prescribed noLine
    obtain rfl : t = u := Except.ok.inj (read.symm.trans first)
    have other' : v.kind ≠ .endOfText := by
      rw [show v.kind = t.kind from congrArg Lexeme.kind same.lexeme]
      exact other
    obtain ⟨vs, e', lists, others⟩ := ih later next fun i u hu => plain (i + 1) u hu
    exact ⟨v :: vs, e', lists_cons.2 ⟨other', first', lists⟩, .cons same others⟩

end Cursor

section
variable {text file : String} {us : List Token}

/-- The tokens of a source with returns. -/
theorem tokenize_level (h : tokenize text file = .ok us) (plain : PlainStrings text file us) :
    ∃ vs, tokenize (returned text) file = .ok vs ∧ List.Forall₂ Token.Level us vs := by
  obtain ⟨ts, e, rfl, lists⟩ := tokenize_lists.1 h
  have level : (Cursor.ofText file text).Returned (Cursor.ofText file (returned text)) :=
    ⟨rfl, ⟨rfl, rfl⟩, String.toList_ofList⟩
  have next : ∀ i t, (ts ++ [e])[i]? = some t →
      ((Cursor.ofText file text).behind i).PlainNext t := by
    intro i t ht
    obtain ⟨p, behind, starts, cut, prescribed⟩ := exists_slice (lists.reads i t ht)
    refine ⟨starts.2.1, slice text file i t, behind, ?_, prescribed, fun other line => ?_⟩
    · rw [starts.2.2, Cursor.rest_skip]
      exact cut
    · by_cases string : t.kind = .literal .string
      · exact plain i t ht string line
      · exact (prescribed.spells.plain string other _ line).1 rfl
  obtain ⟨vs, e', lists', same⟩ := lists.returned level next
  exact ⟨vs ++ [e'], tokenize_lists.2 ⟨vs, e', rfl, lists'⟩, same⟩

end

/-! ## Trees -/

/-- Forgets all offsets, and the columns of those places where line ends among the tokens stand. -/
def Recast.blur (us : List Token) : Recast where
  text _ s := s
  value _ v := v
  location l :=
    ⟨⟨l.line, if ∃ u ∈ us, u.kind = .mark .newline ∧ u.location = l then 0 else l.column, 0⟩, l.file⟩

section
variable {text file text' file' : String} {us vs : List Token} {u v : Token}

/-- No two tokens of a text stand at one place. -/
theorem location_inj (h : tokenize text file = .ok us) (hu : u ∈ us) (hv : v ∈ us)
    (same : u.location = v.location) : u = v := by
  have apart : (us.map Token.location).Nodup := by
    refine List.pairwise_map.2 ((tokenize_increasing h).imp fun less equal => ?_)
    rw [equal] at less
    exact Int.lt_irrefl _ less
  exact List.inj_on_of_nodup_map apart hu hv same

theorem Token.recast_blur (h : tokenize text file = .ok us) (hu : u ∈ us) :
    Recastable.recast (.blur us) u = u.lexeme.token
      ⟨⟨u.location.line, if u.kind = .mark .newline then 0 else u.location.column, 0⟩,
        u.location.file⟩ := by
  have line : (∃ w ∈ us, w.kind = .mark .newline ∧ w.location = u.location) ↔
      u.kind = .mark .newline := by
    constructor
    · rintro ⟨w, hw, isLine, same⟩
      exact location_inj h hw hu same ▸ isLine
    · intro isLine
      exact ⟨u, hu, isLine, rfl⟩
  change u.recast (.blur us) = _
  simp only [Token.recast, Recast.blur, line, ite_self, Lexeme.token, Token.lexeme]

theorem Token.Level.recast_blur (level : u.Level v) (h : tokenize text file = .ok us)
    (h' : tokenize text' file' = .ok vs) (hu : u ∈ us) (hv : v ∈ vs) :
    Recastable.recast (.blur vs) v = Recastable.recast (.blur us) u := by
  have kind : v.kind = u.kind := congrArg Lexeme.kind level.lexeme
  rw [Token.recast_blur h hu, Token.recast_blur h' hv, level.lexeme, level.file, level.line, kind]
  by_cases line : u.kind = .mark .newline
  · simp only [line, if_true]
  · simp only [line, if_false, level.column line]

theorem outcomes_blur (h : tokenize text file = .ok us) (h' : tokenize text' file' = .ok vs)
    (level : List.Forall₂ Token.Level us vs) (i : Nat) :
    (outcomes text' file' i).recast (.blur vs) = (outcomes text file i).recast (.blur us) := by
  obtain ⟨j, u, v, hu, hv, read, read'⟩ := outcomes_listed_both h h' level.length_eq.symm i
  have same : u.Level v := by
    rw [← (List.getElem?_eq_some_iff.1 hu).2, ← (List.getElem?_eq_some_iff.1 hv).2]
    exact level.get _ _
  rw [read, read']
  exact congrArg Except.ok
    (same.recast_blur h h' (List.mem_of_getElem? hu) (List.mem_of_getElem? hv))

theorem parse_blur (limit : Option Nat) (h : tokenize text file = .ok us)
    (h' : tokenize text' file' = .ok vs) (level : List.Forall₂ Token.Level us vs) :
    recast (.blur vs) (parse ⟨limit, none⟩ text' file') =
      recast (.blur us) (parse ⟨limit, none⟩ text file) := by
  rw [parse_eq_stream, parse_eq_stream, ← TokenStream.parse_recast, ← TokenStream.parse_recast]
  refine TokenStream.parse_of_agree_to_fault fun i _ => ?_
  rw [TokenStream.nth_recast, TokenStream.nth_recast, nth_stream_eq, nth_stream_eq]
  exact outcomes_blur h h' level i

end

/-- Two texts with the tokens `us` and `vs` are parsed alike: the trees are the same up to offsets
and up to the columns of line ends, or the same is refused in the same words and in the same line.
-/
inductive ParsedLevel (us vs : List Token) :
    Except ParseFault Tree → Except ParseFault Tree → Prop
  | tree {u v : Tree} (same : recast (.blur vs) v = recast (.blur us) u) :
      ParsedLevel us vs (.ok u) (.ok v)
  | refused {e : GrammarError} {t t' : Token}
      (words : (e.diagnostic t').message = (e.diagnostic t).message)
      (line : t'.location.line = t.location.line) :
      ParsedLevel us vs (.error (.grammar e t)) (.error (.grammar e t'))

theorem parsedLevel_of_blur {limit : Option Nat} {text file : String} {us vs : List Token}
    {r : Except ParseFault Tree} (h : tokenize text file = .ok us)
    (same : recast (.blur vs) r = recast (.blur us) (parse ⟨limit, none⟩ text file)) :
    ParsedLevel us vs (parse ⟨limit, none⟩ text file) r := by
  have relocates (us : List Token) : (Recast.blur us).Relocates := ⟨fun _ _ => rfl, fun _ _ => rfl⟩
  obtain ⟨u, v, parsed, rfl, tree⟩ | ⟨e, t, t', parsed, rfl, token, lexeme⟩ :=
    (relocates us).outcome (relocates vs) same (parse_ne_reading h)
  · exact parsed ▸ .tree tree
  · exact parsed ▸ .refused (e.message_of_lexeme lexeme) (congrArg (·.location.line) token)

/-- A source with a carriage return before every line end has the same tokens at the same places,
but for the columns of line ends, and is parsed alike. -/
theorem tokenize_returned {text file : String} {us : List Token}
    (h : tokenize text file = .ok us) (plain : PlainStrings text file us) :
    ∃ vs, tokenize (returned text) file = .ok vs ∧ List.Forall₂ Token.Level us vs ∧
      ∀ limit, ParsedLevel us vs (parse ⟨limit, none⟩ text file)
        (parse ⟨limit, none⟩ (returned text) file) := by
  obtain ⟨vs, read, level⟩ := tokenize_level h plain
  exact ⟨vs, read, level, fun limit => parsedLevel_of_blur h (parse_blur limit h read level)⟩

/-- The return behind a comment is part of it, and the line end behind that is one column further.
-/
theorem tokenize_returned_comment : ∃ us vs, tokenize "a# c\n'x'" "f.ares" = .ok us ∧
    tokenize "a# c\r\n'x'" "f.ares" = .ok vs ∧ List.Forall₂ Token.Level us vs ∧
    us.map (·.location.column) = [1, 5, 1, 4] ∧ vs.map (·.location.column) = [1, 6, 1, 4] ∧
    ParsedLevel us vs (parse .standard "a# c\n'x'" "f.ares")
      (parse .standard "a# c\r\n'x'" "f.ares") := by
  have read : tokenize "a# c\n'x'" "f.ares" = .ok [⟨.literal .ident, "a", none,
      ⟨⟨1, 1, 0⟩, "f.ares"⟩⟩, .lineEnd ⟨⟨1, 5, 4⟩, "f.ares"⟩, ⟨.literal .string, "x",
      some (.string "x"), ⟨⟨2, 1, 5⟩, "f.ares"⟩⟩, .atEnd ⟨⟨2, 4, 8⟩, "f.ares"⟩] := by decide +kernel
  have returns := tokenize_returned read fun i t ht string => by
    obtain _ | _ | _ | _ | i := i
    case zero | succ.zero | succ.succ.succ.zero =>
      cases ht
      cases string
    case succ.succ.zero =>
      cases ht
      have quoted : slice "a# c\n'x'" "f.ares" 2 ⟨.literal .string, "x", some (.string "x"),
        ⟨⟨2, 1, 5⟩, "f.ares"⟩⟩ = ['\'', 'x', '\''] := by decide +kernel
      rw [quoted]
      decide
    case succ.succ.succ.succ => cases ht
  obtain ⟨vs, read', level, alike⟩ := returns
  have shown : returned "a# c\n'x'" = "a# c\r\n'x'" := by decide +kernel
  rw [shown] at read' alike
  have columns : (tokenize "a# c\r\n'x'" "f.ares").toOption.map (·.map (·.location.column)) =
    some [1, 6, 1, 4] := by decide +kernel
  rw [read'] at columns
  exact ⟨_, vs, read, read', level, rfl, Option.some.inj columns, alike (some 256)⟩

end AresSyntax
