import AresSyntax.Proofs.Reader.Loops

/-!
Single tokens and line ends, as the grammar speaks of them: what a request for them took, when it
gave a result.

* `accept_spec`, `expect_spec`: a token of some kind;
* `skipNewlines_spec`, `advanceLines_spec`: line ends, and a token with those behind it.
-/
namespace AresSyntax
namespace Parse

variable {r r' : Reader} {c : Context}

/-- Taking a token that is not the end. -/
theorem advance_take {t : Token} (hr : r.At c) (hk : r.current.kind ≠ .endOfText)
    (h : advance r = .ok t r') : r'.At c ∧ r.current = t ∧ r.tokens = t :: r'.tokens := by
  obtain ⟨hr', same, take⟩ := Reader.advance_spec hr h
  exact ⟨hr', same, take (same ▸ hk)⟩

theorem expect_spec {k : Kind} {e : Expectation} {t : Token} (hr : r.At c)
    (hk : k ≠ .endOfText) (h : expect k e r = .ok t r') :
    r'.At c ∧ t.kind = k ∧ r.tokens = t :: r'.tokens := by
  obtain ⟨same, h⟩ := expect_eq_ok.1 h
  obtain ⟨hr', rfl, take⟩ := advance_take hr (same ▸ hk) h
  exact ⟨hr', same, take⟩

theorem accept_spec {k : Kind} {b : Bool} (hr : r.At c) (hk : k ≠ .endOfText)
    (h : accept k r = .ok b r') :
    r'.At c ∧ ((b = true ∧ ∃ t, t.kind = k ∧ r.tokens = t :: r'.tokens) ∨
      (b = false ∧ r.current.kind ≠ k ∧ r = r')) := by
  rcases accept_eq_ok.1 h with ⟨same, rfl, t, h⟩ | ⟨other, rfl, rfl⟩
  · obtain ⟨hr', rfl, take⟩ := advance_take hr (same ▸ hk) h
    exact ⟨hr', .inl ⟨rfl, _, same, take⟩⟩
  · exact ⟨hr, .inr ⟨rfl, other, rfl⟩⟩

theorem skipNewline_advancing :
    Advancing (do return if ← accept (.mark .newline) then some () else none) := by
  intro r a r' hr h
  obtain ⟨b, s, taken, hb, rfl⟩ := by simpa only [bind_eq_ok, pure_eq_ok] using h
  obtain ⟨hr', ⟨rfl, t, _, take⟩ | ⟨rfl, _⟩⟩ := accept_spec hr.at (by decide) taken
  · exact ⟨hr'.regular, by simp [take]⟩
  · cases hb

/-- Line ends are taken as long as there are some. -/
theorem skipNewlines_spec {u : Unit} (hr : r.At c) (h : skipNewlines r = .ok u r') :
    r'.At c ∧ Newlines r.tokens r'.tokens ∧ r'.current.kind ≠ .mark .newline := by
  have run := (iterate_eq_ok (fun _ => skipNewline_advancing) hr.regular).1 h
  clear h
  generalize () = start at run
  induction run with
  | stop last =>
    obtain ⟨b, s, taken, hb, rfl⟩ := by simpa only [bind_eq_ok, pure_eq_ok] using last
    obtain ⟨hr', ⟨rfl, _⟩ | ⟨rfl, other, rfl⟩⟩ := accept_spec hr (by decide) taken
    · cases hb
    · exact ⟨hr', .none, other⟩
  | next first _ ih =>
    obtain ⟨b, s, taken, hb, rfl⟩ := by simpa only [bind_eq_ok, pure_eq_ok] using first
    obtain ⟨hr', ⟨rfl, t, newline, take⟩ | ⟨rfl, _⟩⟩ := accept_spec hr (by decide) taken
    · obtain ⟨hs, others, other⟩ := ih hr'
      exact ⟨hs, take ▸ .next newline others, other⟩
    · cases hb

theorem advanceLines_spec {t : Token} (hr : r.At c) (hk : r.current.kind ≠ .endOfText)
    (h : advanceLines r = .ok t r') :
    r'.At c ∧ r.current = t ∧ ∃ ts, r.tokens = t :: ts ∧ Newlines ts r'.tokens := by
  obtain ⟨a, s, first, _, s', lines, rfl, rfl⟩ := by
    simpa only [advanceLines, bind_eq_ok, pure_eq_ok] using h
  obtain ⟨hs, same, take⟩ := advance_take hr hk first
  obtain ⟨hr', lines, _⟩ := skipNewlines_spec hs lines
  exact ⟨hr', same, _, take, lines⟩

end Parse
end AresSyntax
