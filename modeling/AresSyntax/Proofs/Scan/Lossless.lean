import Mathlib.Data.List.Basic
import AresSyntax.TokenStream
import AresSyntax.Proofs.Scan.Segments

/-!
Reading loses nothing: a text is its blanks, comments and tokens, one behind the other.

* `Cursor.read_spec`: what one reading takes;
* `Cursor.Placed`: tokens stand where their pieces start, and reading goes on where they end;
* `tokenize_lossless`: the pieces of a whole text.
-/
namespace AresSyntax
open Segment

namespace Cursor

@[simp] theorem rest_skip (c : Cursor) (n : Nat) : (c.skip n).rest = c.rest.drop n := rfl

theorem skip_skip (c : Cursor) (n m : Nat) : (c.skip n).skip m = c.skip (n + m) := by
  simp only [skip, List.drop_drop, List.take_add, Position.past_append]

@[simp] theorem skip_zero (c : Cursor) : c.skip 0 = c := rfl

theorem offset_skip {c : Cursor} {xs ys : List Char} (h : c.rest = xs ++ ys) :
    (c.skip xs.length).position.offset = c.position.offset + xs.length := by
  simp [skip, h, Position.offset_past]

/-- The cursor behind the next `n` outcomes. -/
def behind (c : Cursor) : Nat → Cursor
  | 0 => c
  | n + 1 => c.read.2.behind n

/-- One reading takes trivia and the characters that spell its token. -/
theorem read_spec {c c' : Cursor} {t : Token} (h : c.read = (.ok t, c')) :
    ∃ ss slice rest, tokens ss = [] ∧ c.rest = text ss ++ (slice ++ rest) ∧
      FitAll ss (slice ++ rest) ∧ Lexeme.Spells slice t.lexeme ∧
      t.location = (c.skip (text ss).length).location ∧
      c' = (c.skip (text ss).length).skip slice.length ∧
      (t.kind = .endOfText → slice ++ rest = [] ∧ t = .atEnd t.location) := by
  unfold read at h
  cases open_ : (Trivia.read c.rest).unclosed with
  | some opened => simp [open_] at h
  | none =>
    obtain ⟨ss, rest, none, cut, length, fit⟩ := Trivia.read_spec open_
    have behind : (c.skip (text ss).length).rest = rest := by simp [cut]
    simp only [open_, length, Prod.mk.injEq, outcome, behind] at h
    obtain ⟨result, rfl⟩ := h
    cases read : (Lexeme.read rest).result with
    | error e => rw [read] at result; cases e <;> cases result
    | ok l =>
      rw [read] at result
      cases result
      obtain ⟨slice, rest, rfl, size, spells⟩ := Lexeme.read_faithful rest l read
      refine ⟨ss, slice, rest, none, cut, fit, spells, rfl, by rw [size], fun ending => ?_⟩
      have nothing := Lexeme.eq_nil_of_read_ending read ending
      rw [nothing] at read
      cases read
      exact ⟨nothing, rfl⟩

/-- Holds for the pieces of the text from `place` on: each token stands where its piece starts, and
is what reading from `reader` gives next. -/
def Placed : (place reader : Cursor) → List Segment → Prop
  | _, _, [] => True
  | place, reader, .token t slice :: ss => t.location = place.location ∧
      reader.read = (.ok t, place.skip slice.length) ∧
      Placed (place.skip slice.length) (place.skip slice.length) ss
  | place, reader, s :: ss => Placed (place.skip s.chars.length) reader ss

theorem placed_trivia {place reader : Cursor} {ss ss' : List Segment} (h : tokens ss = []) :
    Placed place reader (ss ++ ss') ↔ Placed (place.skip (text ss).length) reader ss' := by
  induction ss generalizing place with
  | nil => rfl
  | cons s ss ih =>
    cases s with
    | token t slice => cases h
    | _ => simp only [List.cons_append, Placed, ih h, skip_skip, text_cons, List.length_append]

/-- A token stands behind the pieces before it, and reading goes on behind it. -/
theorem Placed.token {place reader : Cursor} {xs ys : List Segment} {t : Token}
    {slice : List Char} (h : Placed place reader (xs ++ .token t slice :: ys)) :
    t.location = (place.skip (text xs).length).location ∧
      reader.behind ((tokens xs).length + 1) = (place.skip (text xs).length).skip slice.length := by
  induction xs generalizing place reader with
  | nil =>
    obtain ⟨location, read, _⟩ := h
    exact ⟨location, by simp [behind, read]⟩
  | cons x xs ih =>
    cases x with
    | token t slice =>
      obtain ⟨_, read, h⟩ := h
      obtain ⟨location, behind⟩ := ih h
      simp only [skip_skip, Nat.add_assoc] at location behind
      refine ⟨location.trans (by simp [chars]), ?_⟩
      simpa [token?, Cursor.behind, read, chars, skip_skip, Nat.add_assoc] using behind
    | _ =>
      obtain ⟨location, behind⟩ := ih h
      simp only [skip_skip, Nat.add_assoc] at location behind
      refine ⟨location.trans (by simp), ?_⟩
      simpa [token?, skip_skip, Nat.add_assoc] using behind

/-- Taking tokens takes one, and those behind it unless it is the end token. -/
theorem take_eq_ok {n : Nat} {c : Cursor} {ts : List Token} : (c.take (n + 1)).1 = .ok ts ↔
    ∃ t c', c.read = (.ok t, c') ∧ (t.kind = .endOfText ∧ [t] = ts ∨
      t.kind ≠ .endOfText ∧ ∃ us, (c'.take n).1 = .ok us ∧ t :: us = ts) := by
  rw [take]
  obtain ⟨o, c'⟩ := c.read
  cases o with
  | error f => simp
  | ok t =>
    by_cases ending : t.kind = .endOfText
    · simp [ending]
    · cases more : c'.take n with
      | mk o c'' => cases o <;> simp [ending, more]

/-- Holds for tokens up to the end of the text: the end token is the last one and no other, and
stands where nothing is left. -/
def EndsAll (c : Cursor) (ts : List Token) : Prop :=
  ∃ (others : List Token) (e : Token), ts = others ++ [e] ∧ e.kind = .endOfText ∧
    (∀ t ∈ others, t.kind ≠ .endOfText) ∧ e.location = (c.skip c.rest.length).location

/-- Holds for the pieces of all that a cursor has still to read, with the tokens `ts` in them. -/
structure Pieces (c : Cursor) (ts : List Token) (ss : List Segment) : Prop where
  tokens : tokens ss = ts
  whole : text ss = c.rest
  fit : FitAll ss []
  placed : Placed c c ss

/-- The pieces of a text are trivia, a token with the characters that spell it, and the pieces
behind these. -/
theorem Pieces.step {c : Cursor} {t : Token} {ts : List Token} {ss ss' : List Segment}
    {slice : List Char} (none : Segment.tokens ss = [])
    (cut : c.rest = text ss ++ (slice ++ text ss'))
    (fit : FitAll ss (slice ++ text ss')) (spells : Lexeme.Spells slice t.lexeme)
    (location : t.location = (c.skip (text ss).length).location)
    (read : c.read = (.ok t, (c.skip (text ss).length).skip slice.length))
    (h : ((c.skip (text ss).length).skip slice.length).Pieces ts ss') :
    c.Pieces (t :: ts) (ss ++ .token t slice :: ss') where
  tokens := by simp [none, token?, h.tokens]
  whole := by simp [cut, chars]
  fit := fitAll_append.2 ⟨by simpa [chars] using fit, by simpa [Fits] using spells, h.fit⟩
  placed := (placed_trivia none).2 ⟨location, read, h.placed⟩

/-- Without a token the pieces of a text are only known where it ends. -/
theorem pieces_nil {c : Cursor} (h : c.rest = []) : c.Pieces [] [] :=
  ⟨rfl, h.symm, trivial, trivial⟩

/-- The tokens of a text are in pieces that make up the text. Each token but the last one takes a
character, so what is left behind it has enough room as well. -/
theorem take_pieces {n : Nat} {c : Cursor} {ts : List Token} (h : (c.take n).1 = .ok ts)
    (enough : c.rest.length < n) : (∃ ss, c.Pieces ts ss) ∧ c.EndsAll ts := by
  induction n generalizing c ts with
  | zero => omega
  | succ n ih =>
    obtain ⟨t, c', read, last | ⟨other, us, more, rfl⟩⟩ := take_eq_ok.1 h
    · obtain ⟨ending, rfl⟩ := last
      obtain ⟨ss, slice, rest, none, cut, fit, spells, location, rfl, ends⟩ := read_spec read
      obtain ⟨rfl, rfl⟩ := List.append_eq_nil_iff.1 (ends ending).1
      have left : ((c.skip (text ss).length).skip 0).rest = [] := by simp [cut]
      refine ⟨⟨_, .step none cut fit spells location read (pieces_nil left)⟩, [], t, rfl, ending,
        by simp, ?_⟩
      rw [location, cut]
      simp
    · obtain ⟨ss, slice, rest, none, cut, fit, spells, location, rfl, _⟩ := read_spec read
      have some : 0 < slice.length :=
        List.length_pos_iff.2 fun none => other (spells.ending.1 none)
      have left : ((c.skip (text ss).length).skip slice.length).rest = rest := by simp [cut]
      have size := congrArg List.length cut
      simp only [List.length_append] at size
      obtain ⟨⟨ss', pieces⟩, others, e, rfl, ending, before, place⟩ :=
        ih more (by rw [left]; omega)
      obtain rfl : text ss' = rest := pieces.whole.trans left
      refine ⟨⟨_, .step none cut fit spells location read pieces⟩, t :: others, e, rfl, ending,
        ?_, ?_⟩
      · intro u hu
        obtain rfl | hu := List.mem_cons.1 hu
        · exact other
        · exact before u hu
      · rw [place, left, skip_skip, skip_skip, size]

/-- A token starts behind the pieces before it and ends behind the characters that spell it. -/
theorem Pieces.offsets {c : Cursor} {ts : List Token} {before behind : List Segment} {t : Token}
    {slice : List Char} (h : c.Pieces ts (before ++ .token t slice :: behind)) :
    t.location.offset = c.position.offset + (text before).length ∧
      (c.behind ((Segment.tokens before).length + 1)).position.offset =
        c.position.offset + (text before).length + slice.length := by
  obtain ⟨location, stands⟩ := h.placed.token
  have cut : c.rest = text before ++ (slice ++ text behind) := by simp [← h.whole, chars]
  have left : (c.skip (text before).length).rest = slice ++ text behind := by simp [cut]
  have start := offset_skip cut
  constructor
  · rw [location]
    exact start
  · rw [stands, offset_skip left, start]

/-- A token that is not the last one takes characters, and the next one does not start before it
ends. -/
theorem Pieces.ordered {c : Cursor} {ts : List Token} {ss : List Segment} (h : c.Pieces ts ss)
    (all : c.EndsAll ts) {i : Nat} {t u : Token} (ht : ts[i]? = some t)
    (hu : ts[i + 1]? = some u) : t.location.offset < (c.behind (i + 1)).position.offset ∧
      (c.behind (i + 1)).position.offset ≤ u.location.offset := by
  have other : t.kind ≠ .endOfText := by
    obtain ⟨others, e, rfl, _, before, _⟩ := all
    have room := (List.getElem?_eq_some_iff.1 hu).1
    rw [List.length_append, List.length_singleton] at room
    rw [List.getElem?_append_left (by omega)] at ht
    exact before t (List.mem_of_getElem? ht)
  rw [← h.tokens] at ht hu
  obtain ⟨before, slice, behind, rfl, rfl⟩ := exists_token ht
  have next : (Segment.tokens behind)[0]? = some u := by
    simpa [token?, List.getElem?_append_right] using hu
  obtain ⟨between, slice', behind, rfl, _⟩ := exists_token next
  have fit : Lexeme.Spells slice t.lexeme := (fitAll_append.1 h.fit).2.1
  have some : 0 < slice.length := List.length_pos_iff.2 fun none => other (fit.ending.1 none)
  obtain ⟨start, stop⟩ := h.offsets
  have regrouped : before ++ .token t slice :: (between ++ .token u slice' :: behind) =
      (before ++ .token t slice :: between) ++ .token u slice' :: behind := by simp
  rw [regrouped] at h
  obtain ⟨later, _⟩ := h.offsets
  simp only [text_append, text_cons, chars, List.length_append] at later
  omega

end Cursor

/-- Each token of a text stands before the ones behind it. -/
theorem tokenize_increasing {text file : String} {ts : List Token}
    (h : tokenize text file = .ok ts) :
    ts.Pairwise fun t u => t.location.offset < u.location.offset := by
  obtain ⟨⟨ss, pieces⟩, all⟩ := Cursor.take_pieces h (Nat.lt_succ_self _)
  have transitive : IsTrans Token fun t u => t.location.offset < u.location.offset :=
    ⟨fun _ _ _ => Int.lt_trans⟩
  refine List.isChain_iff_pairwise.1 (List.isChain_iff_getElem.2 fun i room => ?_)
  obtain ⟨before, behind⟩ := pieces.ordered all (List.getElem?_eq_getElem (by omega))
    (List.getElem?_eq_getElem room)
  exact Int.lt_of_lt_of_le before behind

/-- A text is its blanks, comments and tokens, one behind the other, and the reader stands behind
each token when it has read it. Line ends outside of long comments and strings are tokens, null
characters stand in comments and strings, and the end token stands behind the last character. -/
theorem tokenize_lossless {text file : String} {ts : List Token}
    (h : tokenize text file = .ok ts) :
    (∃ ss : List Segment, Segment.text ss = text.toList ∧ Segment.tokens ss = ts ∧ FitAll ss [] ∧
      (∀ (before : List Segment) (t : Token) (slice : List Char) (behind : List Segment),
        ss = before ++ .token t slice :: behind →
        t.location.offset = ((Segment.text before).length : Int) ∧
        ((Cursor.ofText file text).behind ((Segment.tokens before).length + 1)).position.offset =
          ((Segment.text before).length + slice.length : Int)) ∧
      (∀ s ∈ ss, '\n' ∈ s.chars → s.HasLines) ∧ ∀ s ∈ ss, '\x00' ∈ s.chars → s.IsFree) ∧
    (∀ (i : Nat) (t u : Token), ts[i]? = some t → ts[i + 1]? = some u →
      t.location.offset < ((Cursor.ofText file text).behind (i + 1)).position.offset ∧
      ((Cursor.ofText file text).behind (i + 1)).position.offset ≤ u.location.offset) ∧
    ∃ (others : List Token) (e : Token), ts = others ++ [e] ∧ e.kind = .endOfText ∧
      (∀ t ∈ others, t.kind ≠ .endOfText) ∧ e.location.offset = (text.length : Int) := by
  obtain ⟨⟨ss, pieces⟩, all⟩ := Cursor.take_pieces h (Nat.lt_succ_self _)
  refine ⟨⟨ss, pieces.whole, pieces.tokens, pieces.fit, ?_, ?_, ?_⟩, ?_, ?_⟩
  · rintro before t slice behind rfl
    obtain ⟨start, stop⟩ := pieces.offsets
    have zero : (Cursor.ofText file text).position.offset = 0 := rfl
    rw [zero] at start stop
    omega
  · intro s hs line
    obtain ⟨behind, fits⟩ := pieces.fit.mem hs
    exact fits.hasLines line
  · intro s hs null
    obtain ⟨behind, fits⟩ := pieces.fit.mem hs
    exact fits.isFree null
  · intro i t u ht hu
    exact pieces.ordered all ht hu
  · obtain ⟨others, e, rfl, ending, before, place⟩ := all
    refine ⟨others, e, rfl, ending, before, ?_⟩
    have start := Cursor.offset_skip (List.append_nil (Cursor.ofText file text).rest).symm
    rw [place]
    simpa [Cursor.ofText, Cursor.location, Position.start, String.length_toList] using start

/-- A long comment with nothing in it, a string with a null character and a line end, and a mark
and a quote in a line comment. -/
theorem tokenize_lossless_comments :
    ∃ ts : List Token, tokenize "x\t=======\n'\x00\n'# '===" "marks.ares" = .ok ts ∧
      (∃ ss : List Segment, Segment.text ss = "x\t=======\n'\x00\n'# '===".toList ∧
        Segment.tokens ss = ts ∧ FitAll ss []) ∧
      ∃ (others : List Token) (e : Token),
        ts = others ++ [e] ∧ others.length = 4 ∧ e.location.offset = 20 := by
  have read : tokenize "x\t=======\n'\x00\n'# '===" "marks.ares" = .ok
      [⟨.literal .ident, "x", none, ⟨⟨1, 1, 0⟩, "marks.ares"⟩⟩,
        ⟨.assign .assign, "=", none, ⟨⟨1, 9, 8⟩, "marks.ares"⟩⟩,
        ⟨.mark .newline, "\n", none, ⟨⟨1, 10, 9⟩, "marks.ares"⟩⟩,
        ⟨.literal .string, "\x00\n", some (.string "\x00\n"), ⟨⟨2, 1, 10⟩, "marks.ares"⟩⟩,
        ⟨.endOfText, "", none, ⟨⟨3, 8, 20⟩, "marks.ares"⟩⟩] := by
    decide +kernel
  obtain ⟨⟨ss, whole, tokens, fit, _⟩, _, others, e, all, _, _, last⟩ := tokenize_lossless read
  have count := congrArg List.length all
  simp only [List.length_append, List.length_cons, List.length_nil] at count
  exact ⟨_, read, ⟨ss, whole, tokens, fit⟩, others, e, all, by omega, last⟩

end AresSyntax
