import AresSyntax.Proofs.Program.Calls
import AresSyntax.Proofs.Refusal.Kinds
import AresSyntax.Proofs.Refusal.Statements

/-!
A token is refused where no program goes on like this, and where one still could before it.

* `Parse.program_mends`: the tokens before a refused one, completed to a program;
* `parse_completed`: a text that begins like another one up to its refused token, and is parsed;
* `parse_refused`: where a token is refused, and what could have stood there.
-/
namespace AresSyntax
open Parse

variable {limit : Option Nat} {text file text' file' : String} {r r' : Reader} {e : GrammarError}
  {t : Token}

/-- Behind what was read before a refused token there are lexemes that complete a program. -/
theorem Parse.program_mends (place : r.At .top)
    (refused : program ⟨limit, none⟩ r = .error (.grammar e t) r') (other : e ≠ .nestedTooDeeply) :
    ∃ ts, r.tokens = ts ++ r'.tokens ∧ (r'.context.deeper.Within limit →
      ∃ ls : List Lexeme, (∀ l ∈ ls, l.Usable) ∧ ∃ u, DerivesProgram limit
        (ts ++ placed r'.current.location ls ++ [.atEnd r'.current.location]) u) := by
  obtain ⟨-, ts, taken, completed⟩ := program_breaks ⟨limit, none⟩ place refused other
  refine ⟨ts, taken, fun within => ?_⟩
  obtain ⟨ls, usable, spelled⟩ := completed within
  have behind : StartsAt r'.current.location [.atEnd r'.current.location] := ⟨_, [], rfl, rfl⟩
  obtain ⟨us, lines, rest, ⟨cs, inner⟩, rfl⟩ := spelled _ behind
  refine ⟨ls, usable, ?_⟩
  rw [List.append_assoc]
  obtain ⟨x, xs, same⟩ := List.exists_cons_of_ne_nil
    (l := ts ++ (placed r'.current.location ls ++ [.atEnd r'.current.location])) (by simp)
  rw [same] at lines ⊢
  exact ⟨_, .intro lines inner rfl⟩

/-- A text begins alike that has the lexemes of the first tokens. -/
theorem beginAlike_of_lexemes {ts us : List Token} {ls : List Lexeme}
    (first : ∀ i t, ts[i]? = some t → outcomes text file i = .ok t)
    (read : tokenize text' file' = .ok us)
    (same : us.map Token.lexeme = ts.map Token.lexeme ++ ls) :
    BeginAlike ts.length text file text' file' := by
  intro i inside
  have length := congrArg List.length same
  simp only [List.length_map, List.length_append] at length
  obtain ⟨vs, e, rfl, lists⟩ := tokenize_lists.1 read
  have ht := List.getElem?_eq_getElem inside
  have hu := List.getElem?_eq_getElem (l := vs ++ [e]) (i := i) (by omega)
  have both := congrArg (·[i]?) same
  rw [List.getElem?_append_left (by simpa using inside)] at both
  simp only [List.getElem?_map, ht, hu, Option.map_some, Option.some.injEq] at both
  exact ⟨_, _, first i _ ht, lists.reads i _ hu, congrArg Lexeme.kind both⟩

/-- The tokens before a refused one are the first ones of a text that is parsed. -/
theorem parse_completed {ts : List Token}
    (started : Reader.start (Cursor.ofText file text).stream = .ok r)
    (refused : program ⟨limit, none⟩ r = .error (.grammar e t) r') (other : e ≠ .nestedTooDeeply)
    (taken : r.tokens = ts ++ r'.tokens) (within : r'.context.deeper.Within limit)
    (file' : String) : ∃ text' u, BeginAlike ts.length text file text' file' ∧
      parse ⟨limit, none⟩ text' file' = .ok u := by
  let φ : Recast := .gather ⟨.start, file'⟩
  have place := (Reader.nth_of_start started).1
  have refused' : program ⟨limit, none⟩ (r.recast φ) =
      .error (.grammar e (t.recast φ)) (r'.recast φ) := by
    rw [recast_program, refused]
    rfl
  have place' : (r.recast φ).At .top := ⟨place.regular.recast, place.context⟩
  obtain ⟨us, taken', completed⟩ := program_mends place' refused' other
  obtain rfl : us = recast φ ts := by
    rw [Reader.tokens_recast, Reader.tokens_recast, taken, recast_append] at taken'
    exact (List.append_cancel_right taken').symm
  obtain ⟨ls, usable, u, derived⟩ := completed within
  have first : ∀ i u, ts[i]? = some u → outcomes text file i = .ok u := by
    intro i u hu
    apply Reader.outcomes_of_tokens started
    rw [taken, List.getElem?_append_left (List.getElem?_eq_some_iff.1 hu).1, hu]
  have others : ∀ u ∈ ts, u.kind ≠ .endOfText := by
    refine upToEnd_others taken ?_
    obtain ⟨rest, tokens⟩ := r'.tokens_eq_cons
    rw [tokens]
    exact List.cons_ne_nil _ _
  have spelled : ∀ l ∈ ts.map Token.lexeme ++ ls, l.Usable :=
    List.forall_mem_append.2 ⟨Lexeme.usable_of_outcomes first others, usable⟩
  obtain ⟨vs, location, read, lexemes⟩ := tokenize_spellAll spelled file'
  have same : recast φ (vs ++ [.atEnd location]) =
      recast φ ts ++ placed ⟨.start, file'⟩ ls ++ [.atEnd ⟨.start, file'⟩] := by
    rw [recast_append, recast_gather _ vs, recast_gather _ ts, lexemes, placed_append]
    rfl
  obtain ⟨v, found, -⟩ := parse_of_recast (φ := φ) read (same ▸ derived)
  have begins : (vs ++ [Token.atEnd location]).map Token.lexeme = ts.map Token.lexeme ++
      (ls ++ [(Token.atEnd location).lexeme]) := by
    rw [List.map_append, lexemes, List.append_assoc]
    rfl
  exact ⟨_, v, beginAlike_of_lexemes first read begins, found⟩

/-- What is wrong with a text is what the program of a reader that starts there refuses. -/
theorem exists_program_of_refused {limits : Limits}
    (h : parse limits text file = .error (.grammar e t)) : ∃ r r',
      Reader.start (Cursor.ofText file text).stream = .ok r ∧
      Parse.program limits r = .error (.grammar e t) r' := by
  unfold parse at h
  cases started : Reader.start (Cursor.ofText file text).stream with
  | error f =>
    rw [started] at h
    cases h
  | ok r =>
    rw [started] at h
    exact ⟨r, _, rfl, Reader.program_eq_error.1 (Prod.ext h rfl)⟩

/-- A token is refused with one of the codes `P001` to `P004` where the parser stands, and its place
is the one that is told. No text is parsed whose tokens have the same kinds up to it. But if there
is room for one more level, a text is parsed whose tokens have the same kinds up to the one before
it. -/
theorem parse_refused (h : parse .standard text file = .error (.grammar e t))
    (code : e.code ∈ ["P001", "P002", "P003", "P004"]) : ∃ r r' i,
      Reader.start (Cursor.ofText file text).stream = .ok r ∧
      Parse.program .standard r = .error (.grammar e t) r' ∧ r'.current = t ∧
      (e.diagnostic t).location = t.location ∧
      outcomes text file i = .ok t ∧
      (∀ k < i, ∃ u, outcomes text file k = .ok u ∧ u.kind ≠ .endOfText) ∧
      (∀ text' file' u, BeginAlike (i + 1) text file text' file' →
        parse .standard text' file' ≠ .ok u) ∧
      (r'.depth ≤ 255 → ∀ file', ∃ text' u, BeginAlike i text file text' file' ∧
        parse .standard text' file' = .ok u) := by
  have other : e ≠ .nestedTooDeeply := by
    rintro rfl
    simp [GrammarError.code] at code
  obtain ⟨r, r', started, refused⟩ := exists_program_of_refused h
  have current : r'.current = t := ((program_restores .standard).fault refused).2.2
  have place := (Reader.nth_of_start started).1
  obtain ⟨ts, taken, -⟩ := program_mends place refused other
  obtain ⟨rest, tokens⟩ := r'.tokens_eq_cons
  have first : ∀ i u, (ts ++ [t])[i]? = some u → outcomes text file i = .ok u := by
    intro i u hu
    apply Reader.outcomes_of_tokens started
    rw [taken, tokens, current, List.append_cons,
      List.getElem?_append_left (List.getElem?_eq_some_iff.1 hu).1, hu]
  have here : outcomes text file ts.length = .ok t := first _ _ (by simp)
  refine ⟨r, r', ts.length, started, refused, current, rfl, here, ?_, ?_, ?_⟩
  · intro k less
    have token := List.getElem?_eq_getElem less
    refine ⟨_, first k _ (by rw [List.getElem?_append_left less, token]), ?_⟩
    exact upToEnd_others taken (by simp [tokens]) _ (List.getElem_mem less)
  · intro text' file' u alike
    exact parse_refuses started refused other taken here alike u
  · intro room file'
    refine parse_completed started refused other taken ?_ file'
    intro most bound
    cases bound
    exact Nat.succ_le_succ room

/-- In a block and a call, where a comma or the end of the call is missing. -/
theorem parse_refused_call : ∃ t r r' i,
    parse .standard "if x \x7b f(1 2" "f.ares" = .error (.grammar (.expected .closeCall) t) ∧
      t.text = "2" ∧ Reader.start (Cursor.ofText "f.ares" "if x \x7b f(1 2").stream = .ok r ∧
      Parse.program .standard r = .error (.grammar (.expected .closeCall) t) r' ∧ r'.depth = 2 ∧
      outcomes "if x \x7b f(1 2" "f.ares" i = .ok t ∧
      ∃ text' u, BeginAlike i "if x \x7b f(1 2" "f.ares" text' "f.ares" ∧
        parse .standard text' "f.ares" = .ok u := by
  obtain ⟨t, refused, text⟩ : ∃ t, parse .standard "if x \x7b f(1 2" "f.ares" =
      .error (.grammar (.expected .closeCall) t) ∧ t.text = "2" :=
    ⟨⟨.literal .integer, "2", some (.integer 2), ⟨⟨1, 12, 11⟩, "f.ares"⟩⟩, by decide +kernel, rfl⟩
  obtain ⟨r, r', i, started, stands, -, -, here, -, -, completed⟩ :=
    parse_refused refused (by decide)
  have depth : r'.depth = 2 := by
    have shown : (Reader.start (Cursor.ofText "f.ares" "if x \x7b f(1 2").stream).toOption.map
        (fun r => (r.program .standard).2.depth) = some 2 := by decide +kernel
    rw [started] at shown
    have pair := Reader.program_eq_error.2 stands
    simpa [Except.toOption, pair] using shown
  obtain ⟨text', u, alike, found⟩ := completed (by omega) "f.ares"
  exact ⟨t, r, r', i, refused, text, started, stands, depth, here, text', u, alike, found⟩

end AresSyntax
