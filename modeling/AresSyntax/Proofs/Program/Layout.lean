import AresSyntax.Proofs.Program.Alike
import AresSyntax.Proofs.Program.Composition
import AresSyntax.Proofs.Program.Sessions

/-!
Texts that differ in their layout: the same lexemes with other blanks and comments between them.

* `Recast.onto`, `outcomes_onto`: one text's tokens moved to the places of another one's;
* `ParsedAlike`, `parse_of_lexemes`: texts with the same lexemes are parsed alike;
* `slice`, `bare`: the characters of a token, and a text of nothing but these and single blanks;
* `parse_bare`: the bare text has the lexemes of the text, and is parsed alike.
-/
namespace AresSyntax

variable {φ : Recast} {limit : Option Nat} {text file text' file' : String}

/-! ## Texts with the same lexemes -/

/-- What a recast stream gives is the recast tree or fault. -/
theorem TokenStream.parse_recast (φ : Recast) (s : TokenStream) :
    (s.recast φ).parse ⟨limit, none⟩ = Recastable.recast φ (s.parse ⟨limit, none⟩) := by
  have start : Reader.start (s.recast φ) = match Reader.start s with
      | .ok r => .ok (r.recast φ)
      | .error f => .error (f.recast φ) := by
    rw [Reader.start_eq, Reader.start_eq, nth_recast, nth_recast]
    cases s.nth 0 with
    | error f => rfl
    | ok t =>
      cases s.nth 1 with
      | error f => rfl
      | ok u =>
        have behind : (s.recast φ).drop 2 = (s.drop 2).recast φ := by
          simp only [drop, recast, List.map_drop]
        simp only [Outcome.recast, behind]
        rfl
  unfold parse
  rw [start]
  cases Reader.start s with
  | error f => rfl
  | ok r =>
    simp only [Reader.program_answer]
    rw [Parse.recast_program, Parse.answer_recast]

/-- Two texts are parsed alike if the outcomes of one are those of the other one recast. -/
theorem parse_of_outcomes (limit : Option Nat)
    (h : ∀ i, outcomes text' file' i = (outcomes text file i).recast φ) :
    parse ⟨limit, none⟩ text' file' = recast φ (parse ⟨limit, none⟩ text file) := by
  rw [parse_eq_stream, parse_eq_stream, ← TokenStream.parse_recast]
  apply TokenStream.parse_of_agree_to_fault
  intro i _
  rw [TokenStream.nth_recast, nth_stream_eq, nth_stream_eq, h]

/-- Changes nothing but locations. -/
def Recast.Relocates (φ : Recast) : Prop := (∀ l s, φ.text l s = s) ∧ ∀ l v, φ.value l v = v

theorem Recast.Relocates.lexeme (h : φ.Relocates) (t : Token) :
    (recast φ t).lexeme = t.lexeme := by
  change (t.recast φ).lexeme = _
  simp [Token.recast, Token.lexeme, h.1, h.2]

theorem Recast.Relocates.token_gather (h : φ.Relocates) (t : Token) (l : Location) :
    recast (gather l) (recast φ t) = recast (gather l) t := by
  have gathered (u : Token) : recast (gather l) u = u.lexeme.token l := u.recast_gather l
  rw [gathered, gathered, h.lexeme]

/-- If two outcomes of parsing are the same when they are moved, then so are their trees, or the
same error is found at tokens with the same lexeme. -/
theorem Recast.Relocates.outcome {ψ : Recast} (h : φ.Relocates) (h' : ψ.Relocates)
    {x y : Except ParseFault Tree} (same : recast ψ y = recast φ x)
    (read : ∀ f, x ≠ .error (.reading f)) :
    (∃ u v, x = .ok u ∧ y = .ok v ∧ recast ψ v = recast φ u) ∨
      ∃ e t t', x = .error (.grammar e t) ∧ y = .error (.grammar e t') ∧
        recast ψ t' = recast φ t ∧ t'.lexeme = t.lexeme := by
  cases x with
  | ok u =>
    cases y with
    | ok v => exact .inl ⟨u, v, rfl, rfl, Except.ok.inj same⟩
    | error f => cases same
  | error f =>
    cases f with
    | reading f => exact absurd rfl (read f)
    | grammar e t =>
      cases y with
      | ok v => cases same
      | error f =>
        cases f with
        | reading f => cases same
        | grammar e' t' =>
          obtain ⟨rfl, token⟩ := ParseFault.grammar.inj (Except.error.inj same)
          refine .inr ⟨e', t, t', rfl, rfl, token, ?_⟩
          rw [← h'.lexeme t', ← h.lexeme t]
          exact congrArg Token.lexeme token

mutual

/-- Trees that were moved are the same up to locations. -/
theorem Recast.Relocates.tree_gather (h : φ.Relocates) (l : Location) :
    ∀ t : Tree, (t.recast φ).recast (gather l) = t.recast (gather l)
  | .node t cs => by
    have token : (t.recast φ).recast (gather l) = t.recast (gather l) := h.token_gather t l
    rw [Tree.recast, Tree.recast, Tree.recast, token, h.trees_gather l cs]

theorem Recast.Relocates.trees_gather (h : φ.Relocates) (l : Location) :
    ∀ cs : List Tree, Tree.recastAll (gather l) (Tree.recastAll φ cs) =
      Tree.recastAll (gather l) cs
  | [] => rfl
  | c :: cs => by
    rw [Tree.recastAll, Tree.recastAll, Tree.recastAll, h.tree_gather l c, h.trees_gather l cs]

end

/-- Moves the tokens `us` to the places of the tokens `vs`, one by one. -/
def Recast.onto (us vs : List Token) : Recast where
  text _ s := s
  value _ v := v
  location l := ((us.zip vs).find? fun p => p.1.location = l).elim l fun p => p.2.location

theorem Recast.relocates_onto (us vs : List Token) : (onto us vs).Relocates :=
  ⟨fun _ _ => rfl, fun _ _ => rfl⟩

/-- Tokens at different places are moved to those that they are paired with. -/
theorem Recast.location_onto {us vs : List Token} {i : Nat} {u v : Token}
    (apart : us.Pairwise fun t u => t.location.offset < u.location.offset)
    (hu : us[i]? = some u) (hv : vs[i]? = some v) :
    (onto us vs).location u.location = v.location := by
  have pair : (us.zip vs)[i]? = some (u, v) := List.getElem?_zip_eq_some.2 ⟨hu, hv⟩
  have found : (us.zip vs).find? (fun p => p.1.location = u.location) = some (u, v) := by
    obtain ⟨room, same⟩ := List.getElem?_eq_some_iff.1 pair
    refine List.find?_eq_some_iff_getElem.2 ⟨by simp, i, room, same, ?_⟩
    intro j before
    rw [List.length_zip] at room
    have less := List.pairwise_iff_getElem.1 apart j i (by omega) (by omega) before
    rw [List.getElem_zip] at same
    have last : us[i] = u := congrArg Prod.fst same
    rw [last] at less
    simp only [List.getElem_zip, Bool.not_eq_true', decide_eq_false_iff_not]
    intro equal
    rw [equal] at less
    exact Int.lt_irrefl _ less
  simp only [onto, found, Option.elim]

/-- Tokens are those of another text moved there, if the lexemes are the same. -/
theorem Token.recast_onto {us vs : List Token} {i : Nat} {u v : Token}
    (apart : us.Pairwise fun t u => t.location.offset < u.location.offset)
    (same : vs.map lexeme = us.map lexeme) (hu : us[i]? = some u) (hv : vs[i]? = some v) :
    Recastable.recast (.onto us vs) u = v := by
  have location := Recast.location_onto apart hu hv
  have lexeme : v.lexeme = u.lexeme := by
    have both := congrArg (·[i]?) same
    simpa [hu, hv] using both
  have moved := (Recast.relocates_onto us vs).lexeme u
  generalize shown : Recastable.recast (.onto us vs) u = w at moved
  have place : w.location = v.location := by rw [← shown, location_recast, location]
  rw [← lexeme] at moved
  obtain ⟨kind, text, value, location⟩ := w
  obtain ⟨kind', text', value', location'⟩ := v
  simp only [Token.lexeme, Lexeme.mk.injEq] at moved place
  obtain ⟨rfl, rfl, rfl⟩ := moved
  rw [place]

section
variable {us vs : List Token}

/-- What is read of a text, its end again and again, is in the list of its tokens. -/
theorem outcomes_listed (h : tokenize text file = .ok us) (i : Nat) :
    ∃ j u, us[j]? = some u ∧ outcomes text file i = .ok u ∧
      (j = i ∨ j + 1 = us.length ∧ j ≤ i) := by
  obtain ⟨ts, e, rfl, lists⟩ := tokenize_lists.1 h
  by_cases inside : i ≤ ts.length
  · obtain ⟨u, hu⟩ : ∃ u, (ts ++ [e])[i]? = some u := ⟨_, List.getElem?_eq_getElem (by simp; omega)⟩
    exact ⟨i, u, hu, lists.reads i u hu, .inl rfl⟩
  · have beyond : ts.length ≤ i := by omega
    exact ⟨ts.length, e, by simp, lists.reads_end beyond, .inr ⟨by simp, beyond⟩⟩

/-- Where two texts have as many tokens, their outcomes at an index are tokens at one index of their
lists. -/
theorem outcomes_listed_both (h : tokenize text file = .ok us) (h' : tokenize text' file' = .ok vs)
    (length : vs.length = us.length) (i : Nat) : ∃ (j : Nat) (u v : Token),
      us[j]? = some u ∧ vs[j]? = some v ∧ outcomes text file i = .ok u ∧
      outcomes text' file' i = .ok v := by
  obtain ⟨j, u, hu, read, index⟩ := outcomes_listed h i
  obtain ⟨k, v, hv, read', index'⟩ := outcomes_listed h' i
  have room := (List.getElem?_eq_some_iff.1 hu).1
  have room' := (List.getElem?_eq_some_iff.1 hv).1
  obtain rfl : j = k := by omega
  exact ⟨j, u, v, hu, hv, read, read'⟩

/-- The outcomes of a text are those of another one with the same lexemes, moved there. -/
theorem outcomes_onto (h : tokenize text file = .ok us) (h' : tokenize text' file' = .ok vs)
    (same : vs.map Token.lexeme = us.map Token.lexeme) (i : Nat) :
    outcomes text' file' i = (outcomes text file i).recast (.onto us vs) := by
  have length : vs.length = us.length := by simpa using congrArg List.length same
  obtain ⟨j, u, v, hu, hv, read, read'⟩ := outcomes_listed_both h h' length i
  rw [read, read', ← Token.recast_onto (tokenize_increasing h) same hu hv]
  rfl

/-- Two texts with the tokens `us` and `vs` are parsed alike: the trees are the same up to
locations, or the same is refused in the same words, at tokens that stand at one index. -/
def ParsedAlike (us vs : List Token) : Except ParseFault Tree → Except ParseFault Tree → Prop
  | .ok u, .ok v => ∀ l : Location, recast (.gather l) v = recast (.gather l) u
  | .error (.grammar e t), .error (.grammar e' t') => e' = e ∧
    (e'.diagnostic t').message = (e.diagnostic t).message ∧
    ∃ i : Nat, us[i]? = some t ∧ vs[i]? = some t'
  | _, _ => False

/-- Where all tokens can be read, nothing but a token is refused. -/
theorem parse_ne_reading (h : tokenize text file = .ok us) (f : ReadFault) :
    parse ⟨limit, none⟩ text file ≠ .error (.reading f) := by
  intro refused
  have fault := tokenize_of_parse_fault refused
  rw [h] at fault
  cases fault

/-- A message names its token by the lexeme. -/
theorem GrammarError.message_of_lexeme {t t' : Token} (e : GrammarError)
    (h : t'.lexeme = t.lexeme) : (e.diagnostic t').message = (e.diagnostic t).message := by
  have kind : t'.kind = t.kind := congrArg Lexeme.kind h
  have text : t'.text = t.text := congrArg Lexeme.text h
  simp only [GrammarError.diagnostic, Token.diagnostic, Token.unexpected, kind, text]

/-- Texts with the same lexemes are parsed alike, wherever these stand. -/
theorem parse_of_lexemes (limit : Option Nat) (h : tokenize text file = .ok us)
    (h' : tokenize text' file' = .ok vs) (same : vs.map Token.lexeme = us.map Token.lexeme) :
    ParsedAlike us vs (parse ⟨limit, none⟩ text file) (parse ⟨limit, none⟩ text' file') := by
  have relocates := Recast.relocates_onto us vs
  rw [parse_of_outcomes limit (outcomes_onto h h' same)]
  cases parsed : parse ⟨limit, none⟩ text file with
  | ok u => exact fun l => relocates.tree_gather l u
  | error f =>
    cases f with
    | reading f => exact absurd parsed (parse_ne_reading h f)
    | grammar e t =>
      refine ⟨rfl, e.message_of_lexeme (relocates.lexeme t), ?_⟩
      obtain ⟨i, found, -⟩ := parse_settled parsed
      obtain ⟨j, u, hu, read, -⟩ := outcomes_listed h i
      obtain rfl : t = u := Except.ok.inj (found.symm.trans read)
      have length : vs.length = us.length := by simpa using congrArg List.length same
      have room := (List.getElem?_eq_some_iff.1 hu).1
      have hv := List.getElem?_eq_getElem (length ▸ room)
      refine ⟨j, hu, hv.trans ?_⟩
      rw [← Token.recast_onto (tokenize_increasing h) same hu hv]
      rfl

end

/-! ## Nothing but single blanks -/

/-- The characters of the token that is read from the text behind `i` others. -/
def slice (text file : String) (i : Nat) (t : Token) : List Char :=
  text.toList.extract t.location.offset.toNat
    ((Cursor.ofText file text).behind (i + 1)).position.offset.toNat

/-- The characters of tokens of the text, with a blank between any two of them. -/
def bare (text file : String) (ts : List Token) : String :=
  String.ofList ([' '].intercalate (ts.mapIdx (slice text file)))

/-- A token is spelt with its characters. -/
theorem slice_spelt {i : Nat} {t : Token} (h : outcomes text file i = .ok t) :
    Lexeme.Spelt (slice text file i t) t.lexeme := by
  have reads := (Cursor.ofText_reads text file).behind i
  have behind : (Cursor.ofText file text).behind (i + 1) =
      ((Cursor.ofText file text).behind i).read.2 := Cursor.behind_add _ i 1
  have read : ((Cursor.ofText file text).behind i).read =
      (.ok t, ((Cursor.ofText file text).behind i).read.2) := Prod.ext h rfl
  obtain ⟨start, l, -, -, skipped, result, short, rfl, stop⟩ := Cursor.read_eq_ok read
  obtain ⟨offset, inside, place⟩ := skipped ▸ reads.skip _
  have spelt := Lexeme.spelt_of_read result
  have cut := (List.take_append_drop (Lexeme.read start.rest).length start.rest).symm
  have length : (start.rest.take (Lexeme.read start.rest).length).length =
      (Lexeme.read start.rest).length := List.length_take_of_le short
  have finish := Cursor.offset_skip cut
  rw [length] at finish
  have stands : start.position.offset = (offset : Int) := by rw [place]; rfl
  have rest : start.rest = text.toList.drop offset := by rw [place]
  have ending : ((Cursor.ofText file text).behind (i + 1)).position.offset =
      (offset : Int) + ((Lexeme.read start.rest).length : Nat) := by
    rw [behind, stop, finish, stands]
  have same : slice text file i ⟨l.kind, l.text, l.value, start.location⟩ =
      start.rest.take (Lexeme.read start.rest).length := by
    have bounds : ((offset : Int) + ((Lexeme.read start.rest).length : Nat)).toNat =
        offset + (Lexeme.read start.rest).length := by omega
    have first : start.location.offset = (offset : Int) := stands
    simp only [slice, ending, first, List.extract_eq_take_drop, bounds, Int.toNat_natCast,
      Nat.add_sub_cancel_left]
    rw [← rest]
  rw [same]
  exact spelt

/-- The tokens of the bare text of all tokens but the last have the lexemes of all of them. -/
theorem tokenize_bare {ts : List Token} {e : Token} (h : tokenize text file = .ok (ts ++ [e]))
    (file' : String) : ∃ vs, tokenize (bare text file ts) file' = .ok vs ∧
      vs.map Token.lexeme = (ts ++ [e]).map Token.lexeme := by
  obtain ⟨ts', e', same, lists⟩ := tokenize_lists.1 h
  obtain ⟨rfl, rfl⟩ : ts = ts' ∧ e = e' := by simpa using List.append_inj' same rfl
  have read {i : Nat} {t : Token} (ht : ts[i]? = some t) : outcomes text file i = .ok t := by
    have room := (List.getElem?_eq_some_iff.1 ht).1
    exact lists.reads i t (by rwa [List.getElem?_append_left room])
  have spelt : ∀ p ∈ ts.mapIdx fun i t => (slice text file i t, t.lexeme),
      Lexeme.Spelt p.1 p.2 ∧ p.2.kind ≠ .endOfText := by
    intro p hp
    obtain ⟨i, room, rfl⟩ := List.mem_mapIdx.1 hp
    exact ⟨slice_spelt (read (List.getElem?_eq_getElem room)),
      lists.others _ (List.getElem_mem room)⟩
  obtain ⟨vs, location, taken, lexemes⟩ := tokenize_spelt spelt file'
  have last : e = .atEnd e.location := by
    have ending : outcomes text file ts.length = .ok e := lists.reads _ _ (by simp)
    exact outcomes_atEnd ending lists.last
  refine ⟨vs ++ [.atEnd location], ?_, ?_⟩
  · have slices : (ts.mapIdx fun i t => (slice text file i t, t.lexeme)).map Prod.fst =
        ts.mapIdx (slice text file) := List.ext_getElem (by simp) (by simp)
    rwa [slices] at taken
  · have same : (ts.mapIdx fun i t => (slice text file i t, t.lexeme)).map Prod.snd =
        ts.map Token.lexeme := List.ext_getElem (by simp) (by simp)
    rw [List.map_append, List.map_append, lexemes, same, last]
    rfl

/-- A text is read like its bare text, with other places: the lexemes of the tokens are the same,
and so are the tree up to locations, or what is refused and in which words. -/
theorem parse_bare (limit : Option Nat) {us : List Token} (h : tokenize text file = .ok us)
    (file' : String) : ∃ vs, tokenize (bare text file us.dropLast) file' = .ok vs ∧
      vs.map Token.lexeme = us.map Token.lexeme ∧
      ParsedAlike us vs (parse ⟨limit, none⟩ text file)
        (parse ⟨limit, none⟩ (bare text file us.dropLast) file') := by
  obtain ⟨ts, e, rfl, -⟩ := tokenize_lists.1 h
  rw [List.dropLast_concat]
  obtain ⟨vs, read, same⟩ := tokenize_bare h file'
  exact ⟨vs, read, same, parse_of_lexemes limit h read same⟩

/-- Tokens that touch each other, digits before a range among them, and a comment behind them. -/
theorem parse_bare_touching : ∃ us vs u v, tokenize "a=0..1#c" "f.ares" = .ok us ∧
    bare "a=0..1#c" "f.ares" us.dropLast = "a = 0 .. 1" ∧
    tokenize "a = 0 .. 1" "f.ares" = .ok vs ∧ vs.map Token.lexeme = us.map Token.lexeme ∧
    parse .standard "a=0..1#c" "f.ares" = .ok u ∧ parse .standard "a = 0 .. 1" "f.ares" = .ok v ∧
    ∀ l : Location, recast (.gather l) v = recast (.gather l) u := by
  have accepted : (tokenize "a=0..1#c" "f.ares").toOption.isSome := by decide +kernel
  obtain ⟨us, read⟩ : ∃ us, tokenize "a=0..1#c" "f.ares" = .ok us := by
    cases read : tokenize "a=0..1#c" "f.ares" with
    | error f =>
      rw [read] at accepted
      cases accepted
    | ok us => exact ⟨us, rfl⟩
  have shown : ((tokenize "a=0..1#c" "f.ares").toOption.map fun us =>
      bare "a=0..1#c" "f.ares" us.dropLast) = some "a = 0 .. 1" := by decide +kernel
  have plain : bare "a=0..1#c" "f.ares" us.dropLast = "a = 0 .. 1" := by
    rw [read] at shown
    exact Option.some.inj shown
  have found : (parse .standard "a=0..1#c" "f.ares").toOption.isSome := by decide +kernel
  have := parse_bare (some 256) read "f.ares"
  rw [plain] at this
  change ∃ vs, _ ∧ _ ∧ ParsedAlike us vs (parse .standard "a=0..1#c" "f.ares")
    (parse .standard "a = 0 .. 1" "f.ares") at this
  generalize parse .standard "a=0..1#c" "f.ares" = r at found this ⊢
  generalize parse .standard "a = 0 .. 1" "f.ares" = r' at this ⊢
  obtain ⟨vs, read', same, alike⟩ := this
  cases r with
  | error f => cases found
  | ok u =>
    cases r' with
    | error f => cases alike
    | ok v => exact ⟨us, vs, u, v, read, plain, read', same, rfl, rfl, alike⟩

end AresSyntax
