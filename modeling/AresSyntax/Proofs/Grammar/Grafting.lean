import AresSyntax.Proofs.Grammar.Spans

/-!
Other tokens behind a phrase. The derivation of a phrase stays, and so does its tree as long as the
tokens behind it start at the same place.

* `Span.Grafts`: a span that stays with other tokens behind it;
* `Derives.grafts`: phrases are such spans.
-/
namespace AresSyntax
namespace Span

theorem start_append {ts us : List Token} (same : start ts = start us) (pre : List Token) :
    start (pre ++ ts) = start (pre ++ us) := by
  cases pre with
  | nil => exact same
  | cons t pre => rfl

/-- The tokens `ts` are `D` up to `rest`, and would be so with any tokens behind them that start at
the same place. -/
def Grafts (D : Span) (ts rest : List Token) : Prop :=
  ∃ pre, ts = pre ++ rest ∧ ∀ rest', start rest' = start rest → D (pre ++ rest') rest'

namespace Grafts

variable {D E : Span} {Ds : List Span} {ts us rest : List Token} {t : Token}

/-- What is put in the place of the tokens starts where these do. -/
theorem imp (h : D.Grafts ts rest)
    (f : ∀ ts' rest', start ts' = start ts → D ts' rest' → E ts' rest') :
    E.Grafts ts rest := by
  obtain ⟨pre, rfl, more⟩ := h
  exact ⟨pre, rfl, fun rest' same => f _ _ (start_append same pre) (more rest' same)⟩

theorem token : (Span.token t).Grafts (t :: rest) rest := ⟨[t], rfl, fun _ _ => rfl⟩

theorem sign {k : Kind} (kind : t.kind = k) : (Span.sign k).Grafts (t :: rest) rest :=
  token.imp fun _ _ _ same => ⟨t, kind, same⟩

theorem nil : (row []).Grafts rest rest := ⟨[], rfl, fun _ _ => rfl⟩

theorem cons (first : D.Grafts ts us) (others : (row Ds).Grafts us rest) :
    (row (D :: Ds)).Grafts ts rest := by
  obtain ⟨pre, rfl, first⟩ := first
  obtain ⟨pre', rfl, others⟩ := others
  refine ⟨pre ++ pre', (List.append_assoc ..).symm, fun rest' same => ?_⟩
  rw [List.append_assoc]
  exact ⟨pre' ++ rest', first _ (start_append same pre'), others rest' same⟩

theorem compositional : Compositional Grafts where
  nil := nil
  token _ _ := token
  semicolon kind := token.imp fun _ _ _ same => .inl ⟨_, kind, same⟩
  cons := cons
  imp := imp

end Grafts
end Span

open AresSyntax.Span

variable {ts rest : List Token}

theorem Newlines.grafts (h : Newlines ts rest) : Grafts Newlines ts rest :=
  h.compose Grafts.compositional

theorem Separator.grafts (h : Separator ts rest) : Grafts Separator ts rest :=
  h.compose Grafts.compositional

/-- What stands behind a phrase does not matter, but for the place where it starts. -/
theorem Derives.grafts {limit : Option Nat} {p : Phrase} {c : Context} {us : List Tree}
    (h : Derives limit p c ts rest us) : Grafts (Derives limit p c · · us) ts rest :=
  h.compose Grafts.compositional

end AresSyntax
