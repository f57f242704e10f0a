import AresSyntax.Proofs.Completeness.Statements
import AresSyntax.Proofs.Scan.Listing

/-!
A text is parsed to the tree that the grammar derives from its tokens.

* `parse_eq_ok`: with no bound on the call stack, parsing finds exactly the derived trees;
* `parse_exact`: parsing with the standard limits, which leave the call stack without a bound, and
  that there is no other tree.
-/
namespace AresSyntax

theorem DerivesProgram.exists_end {limit : Option Nat} {ts : List Token} {t : Tree}
    (h : DerivesProgram limit ts t) : ∃ e ∈ ts, e.kind = .endOfText := by
  cases h with
  | intro lines inner ending =>
    have behind := inner.suffix.trans lines.suffix
    exact ⟨_, behind.subset (List.mem_singleton.2 rfl), ending⟩

theorem Reader.program_eq_ok {limits : Limits} {r : Reader} {t : Tree} :
    (r.program limits).1 = .ok t ↔ ∃ r', Parse.program limits r = .ok t r' := by
  unfold Reader.program
  cases Parse.program limits r with
  | ok u r' => simp
  | error f r' => simp

/-- The tree of a text is the program of a reader that starts there. -/
theorem exists_program_of_parse {limits : Limits} {text file : String} {t : Tree}
    (h : parse limits text file = .ok t) : ∃ r r',
      Reader.start (Cursor.ofText file text).stream = .ok r ∧
        Parse.program limits r = .ok t r' := by
  unfold parse at h
  cases started : Reader.start (Cursor.ofText file text).stream with
  | error f =>
    rw [started] at h
    cases h
  | ok r =>
    rw [started] at h
    obtain ⟨r', program⟩ := Reader.program_eq_ok.1 h
    exact ⟨r, r', rfl, program⟩

/-- A tree that is found is derived from the tokens of the text, which has no faults then. -/
theorem parse_derives {limits : Limits} {text file : String} {t : Tree}
    (h : parse limits text file = .ok t) :
    ∃ ts, tokenize text file = .ok ts ∧ DerivesProgram limits.nesting ts t := by
  obtain ⟨r, r', started, program⟩ := exists_program_of_parse h
  have last := Cursor.streamWithin_endsLast text.toList.length (Cursor.ofText file text)
  obtain ⟨place, _⟩ := Reader.start_spec last started
  have derived := Parse.program_derives place program
  exact ⟨r.tokens, Reader.tokenize_of_start started derived.exists_end, derived⟩

/-- A tree that is derived from the tokens of a text is found, if the call stack has no bound. -/
theorem parse_of_derives {limit : Option Nat} {text file : String} {ts : List Token} {t : Tree}
    (read : tokenize text file = .ok ts) (h : DerivesProgram limit ts t) :
    parse ⟨limit, none⟩ text file = .ok t := by
  obtain ⟨r, started, before⟩ := Reader.start_of_tokenize read
  have room := r.length_tokens_le
  rw [before.tokens] at room
  have derived : DerivesProgram (Limits.mk limit none).nesting ts t := h
  have found := Parse.program_complete derived before
    (.inl (by simp only [Option.getD_none]; omega))
  unfold parse
  rw [started]
  exact Reader.program_eq_ok.2 found

/-- The trees that are found are those that the grammar derives from the tokens of the text. -/
theorem parse_eq_ok {limit : Option Nat} {text file : String} {t : Tree} :
    parse ⟨limit, none⟩ text file = .ok t ↔
      ∃ ts, tokenize text file = .ok ts ∧ DerivesProgram limit ts t := by
  constructor
  · exact parse_derives
  · rintro ⟨ts, read, derived⟩
    exact parse_of_derives read derived

/-- A text with the tokens `ts` is parsed to a tree if and only if the grammar derives the tree from
these with at most 256 levels of nesting, and there is at most one such tree. The call stack has no
bound here. -/
theorem parse_exact {text file : String} {ts : List Token} (read : tokenize text file = .ok ts) :
    (∀ t, parse .standard text file = .ok t ↔ DerivesProgram (some 256) ts t) ∧
      ∀ t u, DerivesProgram (some 256) ts t → DerivesProgram (some 256) ts u → t = u := by
  constructor
  · intro t
    rw [Limits.standard, parse_eq_ok]
    constructor
    · rintro ⟨us, read', derived⟩
      rw [read] at read'
      cases read'
      exact derived
    · intro derived
      exact ⟨ts, read, derived⟩
  · intro t u first second
    have found := parse_of_derives read first
    rw [parse_of_derives read second] at found
    exact (Except.ok.inj found).symm

/-- A tree that is shown was found. -/
theorem exists_tree_of_render {found : Except ParseFault Tree} {shown : String}
    (h : found.toOption.map Tree.render = some shown) :
    ∃ t, found = .ok t ∧ t.render = shown := by
  cases found with
  | error f => cases h
  | ok t => exact ⟨t, rfl, Option.some.inj h⟩

theorem parse_exact_assignments :
    ∃ ts t, tokenize "a[1] = b =\n -c" "f.ares" = .ok ts ∧
      t.render = "(BLOCK (= (SUBSCRIPT a 1) (= b (- c))))" ∧ DerivesProgram (some 256) ts t ∧
      ∀ u, DerivesProgram (some 256) ts u → u = t := by
  have shown : (parse .standard "a[1] = b =\n -c" "f.ares").toOption.map Tree.render =
      some "(BLOCK (= (SUBSCRIPT a 1) (= b (- c))))" := by
    decide +kernel
  obtain ⟨t, found, render⟩ := exists_tree_of_render shown
  obtain ⟨ts, read, _⟩ := parse_derives found
  obtain ⟨exact, unique⟩ := parse_exact read
  have derived := (exact t).1 found
  exact ⟨ts, t, read, render, derived, fun u other => unique u t other derived⟩

end AresSyntax
