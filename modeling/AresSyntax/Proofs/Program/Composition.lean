import AresSyntax.Proofs.Grammar.Exactness
import AresSyntax.Proofs.Grammar.Extension
import AresSyntax.Proofs.Program.Streaming
import AresSyntax.Proofs.Script.Lookahead

/-!
Programs compose by a line end between them.

* `Parse.statements_line`, `Parse.collect_statement`: the statements of a program one by one;
* `Reader.Ahead.statements`: statements of one text, and whatever follows the line end behind them;
* `parse_join`: the program of two texts with a line end between them.
-/
namespace AresSyntax
namespace Parse

variable {α β : Type} {r r' r₁ r₂ : Reader} {f g : α → β}

/-- What a request gives for a reader, in another form. -/
theorem map_congr {p q : Parse α} (same : p r = q r') : (f <$> p) r = (f <$> q) r' := by
  change EStateM.map f p r = EStateM.map f q r'
  simp only [EStateM.map, same]

/-- Line ends are taken one by one. -/
theorem skipNewlines_eq (regular : r.Regular) : skipNewlines r =
    if r.current.kind = .mark .newline then
      match advance r with
      | .ok _ r' => skipNewlines r'
      | .error e r' => .error e r'
    else .ok () r := by
  rw [skipNewlines, iterate_eq (fun _ => skipNewline_advancing) regular]
  by_cases line : r.current.kind = .mark .newline
  · simp only [line, if_true]
    have taking : accept (.mark .newline) r = (advance >>= fun _ => pure true) r := by
      simp only [accept, check_bind, line, decide_true, if_true]
    cases taken : advance r with
    | ok t r' =>
      rw [bind_ok taken] at taking
      rw [bind_ok (a := true) taking]
      rfl
    | error e r' =>
      rw [bind_error taken] at taking
      rw [bind_error taking]
  · have staying : accept (.mark .newline) r = .ok false r :=
      accept_eq_ok.2 (.inr ⟨line, rfl, rfl⟩)
    rw [bind_ok staying, if_neg line]
    rfl

variable {limit : Option Nat} {n : Nat} {again : Grammar} {u : Tree}

/-- A line end before the statements is taken. -/
theorem statements_line (regular : r.Regular) (line : r.current.kind = .mark .newline) :
    statements again r = match advance r with
      | .ok _ r' => statements again r'
      | .error e r' => .error e r' := by
  have skipped := skipNewlines_eq regular
  rw [if_pos line] at skipped
  cases taken : advance r with
  | ok t r' =>
    rw [taken] at skipped
    change EStateM.bind _ _ r = EStateM.bind _ _ r'
    simp only [EStateM.bind, skipped]
  | error e r' =>
    rw [taken] at skipped
    exact bind_error skipped

/-- Where no line end stands, the statements are collected. -/
theorem statements_first (regular : r.Regular) (other : r.current.kind ≠ .mark .newline) :
    statements again r = collect (programStatement? again) r := by
  have skipped := skipNewlines_eq regular
  rw [if_neg other] at skipped
  exact bind_ok skipped

/-- The reader `r'` stands where the separator at `r` is taken but for line ends. -/
def Separates (r r' : Reader) : Prop :=
  r.current.kind = .mark .newline ∧ r = r' ∨
    r.current.kind = .mark .semicolon ∧ ∃ t, advance r = .ok t r'

theorem separator_eq {otherwise : Parse Unit} (h : Separates r r') :
    Grammar.separator otherwise r = skipNewlines r' := by
  obtain ⟨line, rfl⟩ | ⟨semicolon, t, taken⟩ := h
  · simp [Grammar.separator, line]
  · simp only [Grammar.separator, check_bind, semicolon, decide_true, if_true, advanceLines,
      bind_assoc, pure_bind]
    rw [bind_ok taken, bind_pure_unit]

/-- A statement that is found is the first of those that are collected. -/
theorem collect_statement (regular : r.Regular) (goes : r.current.kind ≠ .endOfText)
    (found : Grammar.reading limit n .statement r = .ok u r₁) (separates : Separates r₁ r₂) :
    collect (programStatement? (Grammar.reading limit n)) r =
      ((u :: ·) <$> statements (Grammar.reading limit n)) r₂ := by
  have takes : Grammar.TakesStatement limit (programStatement? (Grammar.reading limit n)) :=
    programStatement?_takes (Grammar.reading_sound n)
  have step : programStatement? (Grammar.reading limit n) r =
      (skipNewlines >>= fun _ => pure (some u)) r₂ := by
    simp only [programStatement?, check_bind, goes, decide_false, Bool.false_eq_true, if_false]
    rw [bind_ok found]
    change EStateM.bind _ _ r₁ = EStateM.bind _ _ r₂
    simp only [EStateM.bind, separator_eq separates]
  rw [collect_eq takes.advancing regular, step]
  cases skipped : skipNewlines r₂ with
  | ok a r₃ =>
    rw [bind_ok skipped, ← bind_pure_comp, statements, bind_assoc, bind_ok skipped]
    rfl
  | error e r₃ =>
    rw [bind_error skipped, ← bind_pure_comp, statements, bind_assoc, bind_error skipped]

end Parse

/-- Line ends are some tokens of that kind. -/
theorem Newlines.exists_append {ts rest : List Token} (h : Newlines ts rest) :
    ∃ ls, ts = ls ++ rest ∧ ∀ l ∈ ls, l.kind = .mark .newline := by
  induction h with
  | none => exact ⟨[], rfl, by simp⟩
  | @next l _ _ newline _ ih =>
    obtain ⟨ls, rfl, lines⟩ := ih
    exact ⟨l :: ls, rfl, by simpa [newline] using lines⟩

/-- A separator is one token and the line ends behind it. -/
theorem Separator.exists_cons {ts rest : List Token} (h : Separator ts rest) :
    ∃ x ts', ts = x :: ts' ∧ Newlines ts' rest ∧
      (x.kind = .mark .newline ∨ x.kind = .mark .semicolon) := by
  cases h with
  | semicolon semicolon others => exact ⟨_, _, rfl, others, .inr semicolon⟩
  | newline newline others => exact ⟨_, _, rfl, others, .inl newline⟩

namespace Reader
open Parse

variable {limit : Option Nat} {n hidden : Nat} {r : Reader} {as bs ls ts : List Token}
  {location : Location} {us : List Tree}

theorem firstKind_append_end (ts : List Token) (location : Location) :
    firstKind (ts ++ [.atEnd location]) = firstKind ts := by
  cases ts <;> rfl

theorem Ahead.current_kind (h : r.Ahead n hidden as location) (seen : hidden ≤ as.length) :
    r.current.kind = firstKind as := by
  cases as with
  | nil => rw [Except.ok.inj (h.shown 0 (.atEnd location) (by simpa using seen) rfl)]; rfl
  | cons a as =>
    rw [Except.ok.inj (h.shown 0 a (by simpa using seen) rfl)]
    rfl

/-- Behind line ends the statements are the same as before them. -/
theorem Ahead.lines {again : Grammar} (lines : ∀ l ∈ ls, l.kind = .mark .newline)
    (h : r.Ahead n hidden (ls ++ bs) location) (seen : hidden < bs.length) :
    ∃ r', Parse.statements again r = Parse.statements again r' ∧
      r'.Ahead n hidden bs location ∧ r.Moved ls.length r' := by
  induction ls generalizing r with
  | nil => exact ⟨r, rfl, h, .refl r⟩
  | cons l ls ih =>
    have seen' : hidden < (ls ++ bs).length := by rw [List.length_append]; omega
    have line : r.current.kind = .mark .newline :=
      (h.current_kind (Nat.le_succ_of_le (Nat.le_of_lt seen'))).trans (lines l List.mem_cons_self)
    obtain ⟨r₁, taken, ahead, moved⟩ := h.advance seen'
    obtain ⟨r', same, ahead', moved'⟩ := ih (fun l hl => lines l (List.mem_cons_of_mem _ hl)) ahead
    refine ⟨r', ?_, ahead', ?_⟩
    · rw [statements_line h.place.regular line, taken]
      exact same
    · rw [List.length_cons, Nat.add_comm]
      exact moved.trans moved'

/-- The first statement behind line ends is found, and no line end behind it is taken. -/
theorem Ahead.firstStatement {u : Tree}
    (derived : Derives limit .statement .top ts (bs ++ [.atEnd location]) [u])
    (lines : Newlines (as ++ bs ++ [.atEnd location]) ts)
    (h : r.Ahead n hidden (as ++ bs) location) (seen : hidden < bs.length)
    (ends : (firstKind bs).endsReturn) :
    ∃ r₁, r₁.Ahead n hidden bs location ∧ r.Moved as.length r₁ ∧ ∀ r₂, Separates r₁ r₂ →
      Parse.statements (Grammar.reading limit n) r =
        ((u :: ·) <$> Parse.statements (Grammar.reading limit n)) r₂ := by
  obtain ⟨ls, cut, newlines⟩ := lines.exists_append
  obtain ⟨cs, rfl⟩ := derived.suffix
  rw [← List.append_assoc, ← List.append_assoc, List.append_left_inj, List.append_left_inj] at cut
  subst cut
  rw [List.append_assoc] at h
  obtain ⟨r₀, same, ahead, moved⟩ := h.lines newlines (by rw [List.length_append]; omega)
  rw [← List.append_assoc] at derived
  obtain ⟨r₁, found, ahead', moved'⟩ := ahead.statement seen derived ends
  refine ⟨r₁, ahead', by rw [List.length_append]; exact moved.trans moved', fun r₂ separates => ?_⟩
  have kind := ahead.current_kind (by rw [List.length_append]; omega)
  have other := derived.not_starts (k := .mark .newline) rfl
  have present := derived.not_starts (k := .endOfText) rfl
  rw [firstKind_append_end, ← kind] at other present
  rw [same, statements_first ahead.place.regular other]
  exact collect_statement ahead.place.regular present found separates

/-- Statements are found one after the other, and then those that follow the tokens of them. -/
theorem Ahead.statements (derived : Derives limit .statements .top ts (bs ++ [.atEnd location]) us)
    (lines : Newlines (as ++ bs ++ [.atEnd location]) ts)
    (h : r.Ahead n hidden (as ++ bs) location) (seen : hidden < bs.length)
    (ends : firstKind bs = .mark .newline) :
    ∃ r', Parse.statements (Grammar.reading limit n) r =
        ((us ++ ·) <$> Parse.statements (Grammar.reading limit n)) r' ∧
      r'.Ahead n hidden bs location ∧ r.Moved as.length r' := by
  generalize phrase : Phrase.statements = p at derived
  generalize place : Context.top = c at derived
  generalize behind : bs ++ [.atEnd location] = rest at derived
  induction derived generalizing r as with
  | noStatement =>
    subst behind
    obtain ⟨ls, cut, lines⟩ := lines.exists_append
    rw [List.append_assoc, List.append_left_inj] at cut
    subst cut
    obtain ⟨r', same, ahead, moved⟩ := h.lines lines seen
    exact ⟨r', by rw [same]; exact (congrFun (id_map _) r').symm, ahead, moved⟩
  | lastStatement last =>
    subst place behind
    obtain ⟨r₁, ahead, moved, found⟩ := h.firstStatement last lines seen (by rw [ends]; rfl)
    have line := (ahead.current_kind (Nat.le_of_lt seen)).trans ends
    exact ⟨r₁, found r₁ (.inl ⟨line, rfl⟩), ahead, moved⟩
  | @nextStatement _ ts₀ ts₁ ts₂ _ u us first separator others _ ih =>
    subst place behind
    obtain ⟨x, ts', rfl, newlines, kind⟩ := separator.exists_cons
    obtain ⟨fs, rfl⟩ := others.suffix.trans newlines.suffix
    obtain ⟨gs, cut⟩ := first.suffix.trans lines.suffix
    have split : gs ++ x :: fs ++ bs ++ [.atEnd location] = as ++ bs ++ [.atEnd location] := by
      simpa using cut
    rw [List.append_left_inj, List.append_left_inj] at split
    subst split
    have seen' : hidden < (x :: fs ++ bs).length := by rw [List.length_append]; omega
    have seen'' : hidden < (fs ++ bs).length := by rw [List.length_append]; omega
    have ends' : (firstKind (x :: fs ++ bs)).endsReturn := by
      rcases kind with kind | kind <;> simp [kind, Kind.endsReturn]
    have first' : Derives limit .statement .top ts₀ (x :: fs ++ bs ++ [.atEnd location]) [u] := by
      simpa using first
    have lines' : Newlines (gs ++ (x :: fs ++ bs) ++ [.atEnd location]) ts₀ := by
      simpa using lines
    have h' : r.Ahead n hidden (gs ++ (x :: fs ++ bs)) location := by simpa using h
    obtain ⟨r₁, ahead, moved, found⟩ := h'.firstStatement first' lines' seen' ends'
    have first_kind : r₁.current.kind = x.kind := ahead.current_kind (Nat.le_of_lt seen')
    obtain ⟨r₂, separates, r', same, ahead', moved'⟩ : ∃ r₂, Separates r₁ r₂ ∧
        ∃ r', Parse.statements (Grammar.reading limit n) r₂ =
          ((us ++ ·) <$> Parse.statements (Grammar.reading limit n)) r' ∧
          r'.Ahead n hidden bs location ∧ r₁.Moved (fs.length + 1) r' := by
      rcases kind with line | semicolon
      · refine ⟨r₁, .inl ⟨first_kind.trans line, rfl⟩, ?_⟩
        have behind : Newlines (x :: fs ++ bs ++ [.atEnd location]) ts₂ :=
          .next line (by simpa using newlines)
        exact ih behind ahead rfl rfl rfl
      · obtain ⟨r₂, taken, ahead₂, moved₂⟩ := ahead.advance seen''
        have behind : Newlines (fs ++ bs ++ [.atEnd location]) ts₂ := by simpa using newlines
        obtain ⟨r', same, ahead', moved'⟩ := ih behind ahead₂ rfl rfl rfl
        refine ⟨r₂, .inr ⟨first_kind.trans semicolon, x, taken⟩, r', same, ahead', ?_⟩
        rw [Nat.add_comm]
        exact moved₂.trans moved'
    refine ⟨r', ?_, ahead', ?_⟩
    · rw [found r₂ separates, map_congr same, Functor.map_map]
      rfl
    · rw [List.length_append]
      exact moved.trans moved'
  | _ => cases phrase

end Reader

instance {α : Type} [Recastable α] : Recastable (Except ParseFault α) where
  recast φ
    | .ok a => .ok (recast φ a)
    | .error f => .error (f.recast φ)

theorem TokenStream.nth_recast (φ : Recast) (s : TokenStream) (i : Nat) :
    (s.recast φ).nth i = (s.nth i).recast φ := by
  simp only [nth, recast, List.getElem?_map, Ending.outcome_recast]
  cases s.pending[i]? <;> rfl

theorem Tree.recast_same_list (us : List Tree) : Recastable.recast .same us = us :=
  (recastAll_eq .same us).symm.trans (recastAll_same us)

namespace Parse

variable {α β : Type} {limit : Option Nat} {n : Nat} {r q : Reader} {φ : Recast}

theorem answer_map (f : α → β) (p : Parse α) : answer ((f <$> p) r) = (answer (p r)).map f := by
  change answer (EStateM.map f p r) = _
  unfold EStateM.map
  cases p r <;> rfl

theorem answer_recast [Recastable α] (x : EStateM.Result ParseFault Reader α) :
    answer (recastResult φ x) = recast φ (answer x) := by
  cases x <;> rfl

theorem answer_onto (st : TokenStream) (x : EStateM.Result ParseFault Reader α) :
    answer (ontoResult st x) = answer x := by
  cases x <;> rfl

theorem programBy_eq (again : Grammar) (r : Reader) : programBy again r =
    (Tree.node (Label.block.token r.current.location) <$> statements again) r := by
  rw [← bind_pure_comp]
  rfl

/-- The program of a reader by its statements, where many rules may wait. -/
theorem answer_program (top : r.depth = 0) (room : r.work < n) :
    answer (program ⟨limit, none⟩ r) =
      (answer (statements (Grammar.reading limit n) r)).map
        (Tree.node (Label.block.token r.current.location)) := by
  have run : programBy (Grammar.reading limit n) (r.recast .same) = _ :=
    programBy_recast top room (Nat.le_refl n)
  rw [Reader.recast_same, recastResult_same Tree.recast_same, ← program_run top room] at run
  rw [← run, programBy_eq, answer_map]

/-- The statements of a reader that sees recast outcomes are recast. -/
theorem answer_statements_recast (top : q.depth = 0) (top' : r.context = q.context)
    (room : q.work < n) (room' : r.work < n) (same : ∀ k, r.nth k = (q.nth k).recast φ) :
    answer (statements (Grammar.reading limit n) r) =
      recast φ (answer (statements (Grammar.reading limit n) q)) := by
  have depth : r.depth = q.depth := congrArg Context.depth top'
  have inside : r.inSubroutine = q.inSubroutine := congrArg Context.inSubroutine top'
  have tells (ψ : Recast) (r : Reader) (top : r.depth = 0) (room : r.work < n) :
      statements (Grammar.reading limit n) (r.recast ψ) =
        recastResult ψ ((Story.statements n).script.run limit r) := by
    have told := (Story.statements n).tells ⟨limit, 0, ψ⟩ r ⟨top, room, nofun⟩
    rwa [Nat.zero_add] at told
  have runs (r : Reader) (top : r.depth = 0) (room : r.work < n) :
      statements (Grammar.reading limit n) r = (Story.statements n).script.run limit r := by
    have told := tells .same r top room
    rwa [Reader.recast_same, recastResult_same Tree.recast_same_list] at told
  have back : r = (q.recast φ).onto r.stream := by
    have current : r.current = q.current.recast φ := Except.ok.inj (same 0)
    have next : r.next = q.next.recast φ := Except.ok.inj (same 1)
    cases r
    simp only [Reader.onto, Reader.recast] at current next depth inside ⊢
    rw [current, next, depth, inside]
  have run : (Story.statements n).script.run limit ((q.recast φ).onto r.stream) = _ :=
    Script.run_onto _ fun k _ => by
      rw [Reader.recast, TokenStream.nth_recast]
      exact same (k + 2)
  rw [← back] at run
  rw [runs r (depth.trans top) room', run, answer_onto, ← runs (q.recast φ) top
    (by rwa [Reader.work_recast]), tells φ q top room, answer_recast, runs q top room]

end Parse

section
variable {limit : Option Nat} {n : Nat} {ts : List Token} {e : Token} {u : Tree}

/-- The statements of a program are derived as well where a line end and further tokens stand
instead of its end token. -/
theorem DerivesProgram.extend (h : DerivesProgram limit (ts ++ [e]) u)
    (others : ∀ t ∈ ts, t.kind ≠ .endOfText) (last : e.kind = .endOfText) (more : List Token) :
    (∃ us, Newlines (ts ++ .lineEnd e.location :: more) us ∧
      Derives limit .statements .top us (.lineEnd e.location :: more) u.children) ∧
    ∃ x, (ts ++ [.lineEnd e.location])[0]? = some x ∧ u.token = Label.block.token x.location := by
  generalize whole : ts ++ [e] = ws at h
  cases h with
  | @intro ws us x e' vs lines inner ending =>
    obtain ⟨fs, cut⟩ := inner.suffix.trans lines.suffix
    rw [← whole] at cut
    obtain ⟨-, same⟩ := List.append_inj' cut rfl
    obtain rfl : e = e' := by simpa using same.symm
    have tail : extend more (ts ++ [e]) = _ := extend_append_end others last
    rw [whole] at tail
    refine ⟨⟨_, tail ▸ lines.extend, ?_⟩, ?_⟩
    · have derived : Derives limit .statements .top (extend more us) _ vs := inner.extend
      change Derives limit .statements .top _ _ vs
      simpa [last] using derived
    · cases ts with
      | nil =>
        cases whole
        exact ⟨_, rfl, rfl⟩
      | cons t ts =>
        cases whole
        exact ⟨_, rfl, rfl⟩

/-- A reader is ahead of tokens, a line end and one token more, which may be the end token. -/
theorem Reader.exists_ahead {r : Reader} {location : Location} {y : Token} (place : r.At .top)
    (room : r.ahead.length < n) (few : ts.length + 2 < n) (others : ∀ t ∈ ts, t.kind ≠ .endOfText)
    (tokens : ∀ i t, ts[i]? = some t → r.nth i = .ok t)
    (line : r.nth ts.length = .ok (.lineEnd location)) (lookahead : r.nth (ts.length + 1) = .ok y)
    (ends : y.kind = .endOfText → y = .atEnd y.location) :
    ∃ hidden more location', hidden ≤ more.length ∧
      r.Ahead n hidden (ts ++ .lineEnd location :: more) location' := by
  have shown : ∀ zs k t, k ≤ ts.length + 1 →
      (ts ++ .lineEnd location :: y :: zs)[k]? = some t → r.nth k = .ok t := by
    intro zs k t inside token
    rw [List.getElem?_append] at token
    split at token
    · exact tokens k t token
    · obtain rfl | rfl : k = ts.length ∨ k = ts.length + 1 := by omega
      · rw [Nat.sub_self] at token
        exact line.trans (congrArg Except.ok (Option.some.inj token))
      · rw [Nat.add_sub_cancel_left] at token
        exact lookahead.trans (congrArg Except.ok (Option.some.inj token))
  by_cases last : y.kind = .endOfText
  · refine ⟨0, [], y.location, Nat.le_refl _, place, room, ?_, ?_, fun k t inside token => ?_⟩
    · rw [List.length_append, List.length_singleton]
      omega
    · intro t ht
      obtain ht | ht := List.mem_append.1 ht
      · exact others t ht
      · obtain rfl := List.mem_singleton.1 ht
        exact nofun
    · rw [List.length_append, List.length_singleton] at inside
      rw [List.append_assoc, ← ends last] at token
      exact shown [] k t inside token
  · refine ⟨1, [y], location, Nat.le_refl _, place, room, ?_, ?_, fun k t inside token => ?_⟩
    · simpa using few
    · intro t ht
      obtain ht | ht := List.mem_append.1 ht
      · exact others t ht
      · obtain rfl | ht := List.mem_cons.1 ht
        · exact nofun
        · obtain rfl := List.mem_singleton.1 ht
          exact last
    · simp only [List.length_append, List.length_cons, List.length_nil] at inside
      rw [List.append_assoc] at token
      exact shown _ k t (by omega) token

/-- Behind the first statements of a text with a line end in it, the statements are those that a
reader behind the line end finds. -/
theorem statements_below {r : Reader} {y : Token} (h : DerivesProgram limit (ts ++ [e]) u)
    (others : ∀ t ∈ ts, t.kind ≠ .endOfText) (last : e.kind = .endOfText)
    (place : r.At .top) (room : r.ahead.length < n) (few : ts.length + 2 < n)
    (tokens : ∀ i t, ts[i]? = some t → r.nth i = .ok t)
    (line : r.nth ts.length = .ok (.lineEnd e.location)) (lookahead : r.nth (ts.length + 1) = .ok y)
    (ends : y.kind = .endOfText → y = .atEnd y.location) :
    ∃ r', Parse.statements (Grammar.reading limit n) r =
        ((u.children ++ ·) <$> Parse.statements (Grammar.reading limit n)) r' ∧
      r'.At .top ∧ r.Moved ts.length r' := by
  obtain ⟨hidden, more, location, seen, ahead⟩ :=
    Reader.exists_ahead place room few others tokens line lookahead ends
  obtain ⟨⟨us, lines, derived⟩, -⟩ := h.extend others last (more ++ [.atEnd location])
  have derived' : Derives limit .statements .top us
      (.lineEnd e.location :: more ++ [.atEnd location]) u.children := derived
  have lines' : Newlines (ts ++ .lineEnd e.location :: more ++ [.atEnd location]) us := by
    simpa using lines
  obtain ⟨r', same, ahead', moved⟩ :=
    ahead.statements derived' lines' (by rw [List.length_cons]; omega) rfl
  exact ⟨r', same, ahead'.place, moved⟩

end

namespace Reader

variable {text file : String} {r : Reader}

theorem nth_of_start (h : Reader.start (Cursor.ofText file text).stream = .ok r) :
    r.At .top ∧ ∀ k, r.nth k = outcomes text file k := by
  have endsLast := Cursor.streamWithin_endsLast text.toList.length (Cursor.ofText file text)
  refine ⟨(start_spec endsLast h).1, fun k => ?_⟩
  rw [← nth_stream_eq, (start_standsAt h).1.nth_eq, Nat.zero_add]

theorem exists_start (h : ∀ k < 2, ∃ t, outcomes text file k = .ok t) :
    ∃ r, Reader.start (Cursor.ofText file text).stream = .ok r := by
  cases started : Reader.start (Cursor.ofText file text).stream with
  | ok r => exact ⟨r, rfl⟩
  | error f =>
    obtain ⟨k, less, -, fault⟩ := start_eq_error.1 started
    obtain ⟨t, token⟩ := h k less
    rw [nth_stream_eq, token] at fault
    cases fault

theorem advance_of_nth {t : Token} (h : r.nth 2 = .ok t) :
    Parse.advance r =
      .ok r.current { r with current := r.next, next := t, stream := r.stream.drop 1 } :=
  advance_eq_ok.2 ⟨t, _, by rw [TokenStream.next_eq]; exact congrArg (·, _) h, rfl, rfl⟩

theorem advance_of_nth_error {f : ReadFault} (h : r.nth 2 = .error f) :
    ∃ r', Parse.advance r = .error (.reading f) r' := by
  have more : r.stream.next = (.error f, r.stream.drop 1) := by
    rw [TokenStream.next_eq]
    exact congrArg (·, _) h
  unfold Parse.advance
  rw [more]
  exact ⟨_, rfl⟩

end Reader

/-- The program of a text by the statements that its reader finds. -/
theorem parse_statements {limit : Option Nat} {text file : String} {n : Nat} {r : Reader}
    (started : Reader.start (Cursor.ofText file text).stream = .ok r) (room : r.ahead.length < n) :
    parse ⟨limit, none⟩ text file =
      (Parse.answer (Parse.statements (Grammar.reading limit n) r)).map
        (Tree.node (Label.block.token r.current.location)) := by
  obtain ⟨_, top, _⟩ := Reader.start_standsAt started
  rw [parse, started, ← Parse.answer_program top (Nat.lt_of_le_of_lt r.work_le room)]
  exact Reader.program_answer _ _

/-- Where a text has no first token, that is what is wrong with its program. -/
theorem parse_of_fault {limit : Option Nat} {text file : String} {f : ReadFault}
    (fault : outcomes text file 0 = .error f) :
    parse ⟨limit, none⟩ text file = .error (.reading f) := by
  refine TokenStream.parse_of_start_error (Reader.start_eq_error.2 ⟨0, by omega, by simp, ?_⟩)
  rwa [nth_stream_eq]

/-- Many rules may wait where one reader stands, and where another one starts if it does. -/
theorem Reader.exists_room (least : Nat) (x : Except ReadFault Reader) :
    ∃ n, least < n ∧ ∀ q, x = .ok q → q.ahead.length < n := by
  cases x with
  | error f => exact ⟨least + 1, Nat.lt_succ_self _, fun q start => absurd start (by simp)⟩
  | ok q =>
    refine ⟨least + q.ahead.length + 1, by omega, fun q' start => ?_⟩
    rw [← Except.ok.inj start]
    omega

/-- Behind a line end with the outcomes of a text behind it, recast, stand the statements of the
program of that text, recast. -/
theorem Parse.answer_statements_line {limit : Option Nat} {more file : String} {n : Nat}
    {φ : Recast} {r : Reader} {y : Token} (first : outcomes more file 0 = .ok y)
    (place : r.At .top) (line : r.current.kind = .mark .newline) (room : r.ahead.length < n)
    (room' : ∀ q, Reader.start (Cursor.ofText file more).stream = .ok q → q.ahead.length < n)
    (seen : ∀ k, r.nth (k + 1) = (outcomes more file k).recast φ) :
    answer (statements (Grammar.reading limit n) r) =
      recast φ ((parse ⟨limit, none⟩ more file).map Tree.children) := by
  rw [statements_line place.regular line]
  cases started : Reader.start (Cursor.ofText file more).stream with
  | error f =>
    have fault : outcomes more file 1 = .error f := by
      obtain ⟨k, less, -, fault⟩ := Reader.start_eq_error.1 started
      rw [nth_stream_eq] at fault
      obtain rfl | rfl : k = 0 ∨ k = 1 := by omega
      · rw [first] at fault
        cases fault
      · exact fault
    obtain ⟨r', failed⟩ := Reader.advance_of_nth_error (r := r) (f := f.recast φ)
      (by rw [seen 1, fault]; rfl)
    have refused : parse ⟨limit, none⟩ more file = .error (.reading f) :=
      TokenStream.parse_of_start_error started
    rw [refused, failed]
    rfl
  | ok q =>
    obtain ⟨top, nth⟩ := Reader.nth_of_start started
    have next : r.nth 2 = .ok (q.next.recast φ) := by
      rw [seen 1, ← nth 1]
      rfl
    have advanced := Reader.advance_of_nth next
    have moved := Reader.moved_of_advance advanced
    have context := (Reader.advance_spec place advanced).1.context
    rw [advanced, parse_statements started (room' q started)]
    have work := Nat.lt_of_le_of_lt q.work_le (room' q started)
    have work' := Nat.lt_of_le_of_lt (Reader.work_le _) (Nat.lt_of_le_of_lt moved.less room)
    refine (answer_statements_recast (φ := φ) (congrArg Context.depth top.context)
      (context.trans top.context.symm) work work' fun k => ?_).trans (congrArg _ ?_)
    · rw [moved.nth, Nat.add_comm, seen, nth]
    · cases answer (Parse.statements (Grammar.reading limit n) q) <;> rfl

/-- The program of a text with the statements of another program behind its own, recast to stand
below the text, or what is wrong with that program. -/
def joined (text : String) (u : Tree) (below : Except ParseFault Tree) : Except ParseFault Tree :=
  (recast (.below text) (below.map Tree.children)).map fun vs => .node u.token (u.children ++ vs)

/-- Up to a line end all outcomes are tokens. -/
theorem tokens_before_line {T : Nat → Outcome} {ts : List Token} {l : Token}
    (tokens : ∀ i t, ts[i]? = some t → T i = .ok t) (line : T ts.length = .ok l) :
    ∀ k < ts.length + 1, ∃ t, T k = .ok t := by
  intro k hk
  obtain less | rfl : k < ts.length ∨ k = ts.length := by omega
  · exact ⟨_, tokens k _ (List.getElem?_eq_getElem less)⟩
  · exact ⟨l, line⟩

section
variable {limit : Option Nat} {text file : String} {u : Tree}

/-- Two programs make up one, if the second one has a first token. -/
theorem parse_join_of_token (h : parse ⟨limit, none⟩ text file = .ok u) {more : String} {y : Token}
    (first : outcomes more file 0 = .ok y) :
    parse ⟨limit, none⟩ (text ++ "\n" ++ more) file =
      joined text u (parse ⟨limit, none⟩ more file) := by
  obtain ⟨ws, read, derived⟩ := parse_derives h
  obtain ⟨ts, e, rfl, last, others, tokens, line, below⟩ := outcomes_join read more
  have lookahead : outcomes (text ++ "\n" ++ more) file (ts.length + 1) =
      .ok (y.recast (.below text)) := by
    rw [← Nat.add_zero (ts.length + 1), below, first]
    rfl
  have before := tokens_before_line tokens line
  obtain ⟨r, started⟩ := Reader.exists_start fun k hk => by
    obtain less | rfl : k < ts.length + 1 ∨ k = ts.length + 1 := by omega
    · exact before k less
    · exact ⟨_, lookahead⟩
  obtain ⟨place, nth⟩ := Reader.nth_of_start started
  have token : u.token = Label.block.token r.current.location := by
    obtain ⟨x, head, token⟩ := (derived.extend others last []).2
    have current := nth 0
    cases ts with
    | nil =>
      cases head
      rw [Except.ok.inj (current.trans line), token]
    | cons t ts =>
      cases head
      rw [Except.ok.inj (current.trans (tokens 0 _ rfl)), token]
  obtain ⟨n, least, room⟩ := Reader.exists_room (r.ahead.length + ts.length + 2)
    (Reader.start (Cursor.ofText file more).stream)
  obtain ⟨r', same, place', moved⟩ := statements_below (n := n) derived others last place
    (by omega) (by omega) (fun i t ht => (nth i).trans (tokens i t ht)) ((nth _).trans line)
    ((nth _).trans lookahead) (fun ending => outcomes_atEnd lookahead ending)
  have newline : r'.current.kind = .mark .newline := by
    rw [Except.ok.inj ((moved.nth 0).trans ((nth _).trans line))]
    rfl
  have seen (k : Nat) : r'.nth (k + 1) = (outcomes more file k).recast (.below text) := by
    rw [moved.nth, nth, Nat.add_comm k, ← Nat.add_assoc, below]
  have less := moved.less
  rw [parse_statements started (n := n) (by omega), same, Parse.answer_map, ← token,
    Parse.answer_statements_line first place' newline (by omega) room seen, joined]
  cases recast (.below text) ((parse ⟨limit, none⟩ more file).map Tree.children) <;> rfl

/-- Behind a program stands what is wrong with the first token of another text. The grammar can not
refuse the tokens before the fault: it would without the other text as well. -/
theorem parse_join_of_fault (h : parse ⟨limit, none⟩ text file = .ok u) {more : String}
    {f : ReadFault} (first : outcomes more file 0 = .error f) :
    parse ⟨limit, none⟩ (text ++ "\n" ++ more) file =
      .error (.reading (f.recast (.below text))) := by
  obtain ⟨ws, read, derived⟩ := parse_derives h
  obtain ⟨ts, e, rfl, last, others, tokens, line, below⟩ := outcomes_join read more
  have before := tokens_before_line tokens line
  have fault : outcomes (text ++ "\n" ++ more) file (ts.length + 1) =
      .error (f.recast (.below text)) := by
    rw [← Nat.add_zero (ts.length + 1), below, first]
    rfl
  obtain reading | ⟨g, t, refused⟩ := parse_at_fault before fault
  · exact reading
  · exfalso
    obtain ⟨ts', e', same, -, -, tokens', line', -⟩ := outcomes_join read ""
    obtain ⟨rfl, same⟩ := List.append_inj' same rfl
    obtain rfl : e = e' := by simpa using same
    have elsewhere : parse ⟨limit, none⟩ (text ++ "\n" ++ "") file = .error (.grammar g t) :=
      parse_refused_before refused fault fun j hj => by
        obtain less | rfl : j < ts.length ∨ j = ts.length := by omega
        · have token := List.getElem?_eq_getElem less
          rw [tokens j _ token, tokens' j _ token]
        · rw [line, line']
    have empty : _ = joined text u (parse ⟨limit, none⟩ "" file) := parse_join_of_token h rfl
    rw [elsewhere] at empty
    cases empty
end

/-- The programs of two texts make up the program of the text with a line end between them. The
statements of the second one, and what is wrong with it, are found further down. -/
theorem parse_join {limit : Option Nat} {text file : String} {u : Tree}
    (h : parse ⟨limit, none⟩ text file = .ok u) (more : String) :
    (∀ v, parse ⟨limit, none⟩ more file = .ok v →
      parse ⟨limit, none⟩ (text ++ "\n" ++ more) file =
        .ok (.node u.token (u.children ++ recast (.below text) v.children))) ∧
    ∀ f, parse ⟨limit, none⟩ more file = .error f →
      parse ⟨limit, none⟩ (text ++ "\n" ++ more) file = .error (f.recast (.below text)) := by
  have joins : parse ⟨limit, none⟩ (text ++ "\n" ++ more) file =
      joined text u (parse ⟨limit, none⟩ more file) := by
    cases first : outcomes more file 0 with
    | ok y => exact parse_join_of_token h first
    | error f =>
      rw [parse_of_fault first]
      exact parse_join_of_fault h first
  refine ⟨fun v program => ?_, fun f refused => ?_⟩
  · rw [joins, program]
    rfl
  · rw [joins, refused]
    rfl

theorem parse_join_after_comment : ∃ u v,
    parse .standard "x = 1 # 2" "f.ares" = .ok u ∧ u.render = "(BLOCK (= x 1))" ∧
      parse .standard "f(\nx)" "f.ares" = .ok v ∧ v.render = "(BLOCK (CALL f x))" ∧
      parse .standard ("x = 1 # 2" ++ "\n" ++ "f(\nx)") "f.ares" =
        .ok (.node u.token (u.children ++ recast (.below "x = 1 # 2") v.children)) ∧
      parse .standard ("x = 1 # 2" ++ "\n" ++ ")") "f.ares" = .error (.grammar
        .expectedExpression ⟨.mark .closeParen, ")", none, ⟨⟨2, 1, 10⟩, "f.ares"⟩⟩) := by
  have shown : (parse .standard "x = 1 # 2" "f.ares").toOption.map Tree.render =
      some "(BLOCK (= x 1))" := by
    decide +kernel
  have shown' : (parse .standard "f(\nx)" "f.ares").toOption.map Tree.render =
      some "(BLOCK (CALL f x))" := by
    decide +kernel
  obtain ⟨u, found, render⟩ := exists_tree_of_render shown
  obtain ⟨v, found', render'⟩ := exists_tree_of_render shown'
  refine ⟨u, v, found, render, found', render', (parse_join found _).1 v found', ?_⟩
  exact (parse_join found ")").2 _ (by set_option maxRecDepth 2000 in rfl)

end AresSyntax
