import AresSyntax.Proofs.Grammar.Spans
import AresSyntax.Proofs.Scan.Joining

/-!
What follows a phrase does not matter to its derivation, so the end of a text may give way to a line
end and further tokens.

* `extend`: tokens with others behind them instead of the end token;
* `Derives.extend`: phrases are derived as before.
-/
namespace AresSyntax

/-- The tokens with a line end in the place of the end token, and `more` behind it. -/
def extend (more ts : List Token) : List Token :=
  ts.flatMap fun t => if t.kind = .endOfText then .lineEnd t.location :: more else [t]

section
variable {more ts rest : List Token}

@[simp] theorem extend_nil : extend more [] = [] := rfl

@[simp] theorem extend_cons (t : Token) : extend more (t :: ts) =
    (if t.kind = .endOfText then .lineEnd t.location :: more else [t]) ++ extend more ts := rfl

theorem extend_append_end {e : Token} (others : ∀ t ∈ ts, t.kind ≠ .endOfText)
    (last : e.kind = .endOfText) : extend more (ts ++ [e]) = ts ++ .lineEnd e.location :: more := by
  induction ts with
  | nil => simp [last]
  | cons t ts ih =>
    have other := others t List.mem_cons_self
    simp [other, ih fun u hu => others u (List.mem_cons_of_mem _ hu)]

/-- The line end in the place of the end token starts where this does. -/
theorem start_extend (ts : List Token) : Span.start (extend more ts) = Span.start ts := by
  cases ts with
  | nil => rfl
  | cons t ts =>
    rw [extend_cons]
    split <;> rfl

theorem extend_cons_of_ne {t : Token} (present : t.kind ≠ .endOfText) (ts : List Token) :
    extend more (t :: ts) = t :: extend more ts := by
  simp [present]

/-- No phrase takes the end token, so it may give way to others behind the phrase. -/
theorem compositional_extend :
    Span.Compositional fun D ts rest => D (extend more ts) (extend more rest) where
  nil := rfl
  token present _ := extend_cons_of_ne present _
  semicolon kind := .inl ⟨_, kind, extend_cons_of_ne (kind ▸ nofun) _⟩
  cons first others := ⟨_, first, others⟩
  imp h f := f _ _ (start_extend _) h

theorem Newlines.extend (h : Newlines ts rest) :
    Newlines (extend more ts) (extend more rest) :=
  h.compose compositional_extend

theorem Derives.extend {limit : Option Nat} {p : Phrase} {c : Context} {us : List Tree}
    (h : Derives limit p c ts rest us) :
    Derives limit p c (extend more ts) (extend more rest) us :=
  h.compose compositional_extend

end
end AresSyntax
