import AresSyntax.Proofs.Reader.Lines

/-!
Requests that give a result. `Takes` says so for all readers before the same tokens of a text
without faults; a request that is built from others takes what they take one after the other.

* `Takes`: the tokens that a request takes, and what it gives for them;
* `Takes.bind`, `Takes.iterate_next`, `Takes.collect_next`: requests in a row;
* `Takes.expect`, `Takes.skipNewlines`, `Takes.nested`: the requests of a reader;
* `Resumes`: reading from the start of some tokens is the same as going on behind them.
-/
namespace AresSyntax

/-- At the place `c` of a text without faults `read` gives `a` before the tokens `ts`, and stands
before `rest` then. -/
def Takes {α : Type} (c : Context) (ts rest : List Token) (read : Parse α) (a : α) : Prop :=
  ∀ ⦃r : Reader⦄, r.Before c ts → ∃ r', read r = .ok a r' ∧ r'.Before c rest

namespace Takes
open Parse

variable {α β : Type} {c : Context} {ts ts₁ rest : List Token} {t : Token} {a b d : α} {e : β}

theorem pure : Takes c ts ts (Pure.pure a) a :=
  fun r hr => ⟨r, rfl, hr⟩

theorem bind {p : Parse α} {f : α → Parse β} (first : Takes c ts ts₁ p a)
    (next : Takes c ts₁ rest (f a) e) : Takes c ts rest (p >>= f) e := by
  intro r hr
  obtain ⟨s, hp, hs⟩ := first hr
  obtain ⟨r', hf, hr'⟩ := next hs
  exact ⟨r', (bind_ok hp).trans hf, hr'⟩

/-- A reader always has a token before it. -/
theorem of_cons {p : Parse α} (h : ∀ t us, ts = t :: us → Takes c ts rest p a) :
    Takes c ts rest p a := by
  intro r hr
  obtain ⟨us, hu⟩ := r.tokens_eq_cons
  exact h r.current us (hr.tokens ▸ hu) hr

theorem current {f : Token → Parse β} (next : Takes c (t :: ts) rest (f t) e) :
    Takes c (t :: ts) rest (Parse.current >>= f) e := by
  intro r hr
  rw [current_bind, hr.current]
  exact next hr

theorem check {k : Kind} {f : Bool → Parse β} (next : Takes c ts rest (f (firstKind ts = k)) e) :
    Takes c ts rest (Parse.check k >>= f) e := by
  intro r hr
  rw [check_bind, hr.firstKind]
  exact next hr

theorem advance (ht : t.kind ≠ .endOfText) : Takes c (t :: ts) ts Parse.advance t :=
  fun _ hr => hr.advance ht

theorem expect {k : Kind} {x : Expectation} (ht : t.kind = k) (hk : k ≠ .endOfText) :
    Takes c (t :: ts) ts (Parse.expect k x) t := by
  intro r hr
  obtain ⟨r', taken, hr'⟩ := hr.advance (ht ▸ hk)
  exact ⟨r', expect_eq_ok.2 ⟨hr.current ▸ ht, taken⟩, hr'⟩

theorem accept {k : Kind} (ht : t.kind = k) (hk : k ≠ .endOfText) :
    Takes c (t :: ts) ts (Parse.accept k) true := by
  intro r hr
  obtain ⟨r', taken, hr'⟩ := hr.advance (ht ▸ hk)
  exact ⟨r', accept_eq_ok.2 (.inl ⟨hr.current ▸ ht, rfl, t, taken⟩), hr'⟩

theorem accept_not {k : Kind} (ht : firstKind ts ≠ k) : Takes c ts ts (Parse.accept k) false :=
  fun r hr => ⟨r, accept_eq_ok.2 (.inr ⟨hr.firstKind ▸ ht, rfl, rfl⟩), hr⟩

section
variable {step : α → Parse (Option α)} (hs : ∀ a, (step a).Advancing)
include hs

theorem iterate_stop (last : Takes c ts rest (step a) none) :
    Takes c ts rest (iterate step a) a := by
  intro r hr
  obtain ⟨r', hl, hr'⟩ := last hr
  exact ⟨r', by rw [iterate_eq hs hr.regular, hl], hr'⟩

theorem iterate_next (first : Takes c ts ts₁ (step a) (some b))
    (others : Takes c ts₁ rest (iterate step b) d) : Takes c ts rest (iterate step a) d := by
  intro r hr
  obtain ⟨s, hf, hs'⟩ := first hr
  obtain ⟨r', ho, hr'⟩ := others hs'
  exact ⟨r', by rw [iterate_eq hs hr.regular, hf]; exact ho, hr'⟩

end

section
variable {step : Parse (Option α)} (hs : step.Advancing)
include hs

theorem collect_stop (last : Takes c ts rest step none) : Takes c ts rest (collect step) [] := by
  intro r hr
  obtain ⟨r', hl, hr'⟩ := last hr
  exact ⟨r', by rw [collect_eq hs hr.regular, hl], hr'⟩

theorem collect_next {as : List α} (first : Takes c ts ts₁ step (some a))
    (others : Takes c ts₁ rest (collect step) as) : Takes c ts rest (collect step) (a :: as) := by
  intro r hr
  obtain ⟨s, hf, hs'⟩ := first hr
  obtain ⟨r', ho, hr'⟩ := others hs'
  refine ⟨r', ?_, hr'⟩
  rw [collect_eq hs hr.regular, hf]
  exact bind_ok ho

end

/-- Line ends are taken if something else follows them. -/
theorem skipNewlines (lines : Newlines ts rest) (other : firstKind rest ≠ .mark .newline) :
    Takes c ts rest Parse.skipNewlines () := by
  induction lines with
  | none =>
    exact iterate_stop (fun _ => skipNewline_advancing) (bind (accept_not other) pure)
  | next newline _ ih =>
    exact iterate_next (fun _ => skipNewline_advancing) (bind (accept newline (by decide)) pure)
      (ih other)

theorem advanceLines (ht : t.kind ≠ .endOfText) (lines : Newlines ts rest)
    (other : firstKind rest ≠ .mark .newline) : Takes c (t :: ts) rest Parse.advanceLines t :=
  bind (advance ht) (bind (skipNewlines lines other) pure)

theorem nested {limit : Option Nat} {body : Parse α} (within : c.deeper.Within limit)
    (inner : Takes c.deeper ts rest body a) : Takes c ts rest (Parse.nested limit body) a := by
  intro r hr
  obtain ⟨⟨⟨hp, hn, hc⟩, rfl⟩, clean, tokens⟩ := hr
  have deeper : { r with depth := r.depth + 1 }.Before r.context.deeper ts :=
    ⟨⟨⟨hp, hn, hc⟩, rfl⟩, clean, tokens⟩
  obtain ⟨s, run, ⟨⟨hp', hn', hc'⟩, place'⟩, clean', tokens'⟩ := inner deeper
  refine ⟨{ s with depth := s.depth - 1 }, nested_eq_ok.2 ⟨within, s, run, rfl⟩,
    ⟨⟨hp', hn', hc'⟩, ?_⟩, clean', tokens'⟩
  simp only [Reader.context, Context.deeper, Context.mk.injEq] at place' ⊢
  exact ⟨by omega, place'.2⟩

theorem inSubroutine {body : Parse α} (inner : Takes c.body ts rest body a) :
    Takes c ts rest (Parse.inSubroutine body) a := by
  intro r hr
  obtain ⟨⟨⟨hp, hn, hc⟩, rfl⟩, clean, tokens⟩ := hr
  have inside : { r with inSubroutine := true }.Before r.context.body ts :=
    ⟨⟨⟨hp, hn, hc⟩, rfl⟩, clean, tokens⟩
  obtain ⟨s, run, ⟨⟨hp', hn', hc'⟩, place'⟩, clean', tokens'⟩ := inner inside
  refine ⟨{ s with inSubroutine := r.inSubroutine }, inSubroutine_eq_ok.2 ⟨s, run, rfl⟩,
    ⟨⟨hp', hn', hc'⟩, ?_⟩, clean', tokens'⟩
  simp only [Reader.context, Context.body, Context.mk.injEq] at place' ⊢
  exact ⟨place'.1, trivial⟩

end Takes

/-- At the place `c` of a text without faults reading `whole` before the tokens `ts` is the same as
reading `more` before `rest`, where the tokens between are taken. -/
def Resumes {α : Type} (c : Context) (ts rest : List Token) (whole more : Parse α) : Prop :=
  ∀ ⦃r : Reader⦄, r.Before c ts → ∃ r', whole r = more r' ∧ r'.Before c rest

namespace Resumes
open Parse

variable {α β : Type} {c : Context} {ts ts₁ rest : List Token} {whole more : Parse α} {a b : α}

theorem of_first {first : Parse β} {f : β → Parse α} {u : β} (h : Takes c ts rest first u) :
    Resumes c ts rest (first >>= f) (f u) := by
  intro r hr
  obtain ⟨r', run, hr'⟩ := h hr
  exact ⟨r', bind_ok run, hr'⟩

theorem step {next : α → Parse (Option α)} (hs : ∀ a, (next a).Advancing)
    (h : Resumes c ts ts₁ whole (iterate next a)) (one : Takes c ts₁ rest (next a) (some b)) :
    Resumes c ts rest whole (iterate next b) := by
  intro r hr
  obtain ⟨s, same, hs'⟩ := h hr
  obtain ⟨r', run, hr'⟩ := one hs'
  refine ⟨r', same.trans ?_, hr'⟩
  rw [iterate_eq hs hs'.regular, run]

theorem takes (h : Resumes c ts ts₁ whole more) (last : Takes c ts₁ rest more a) :
    Takes c ts rest whole a := by
  intro r hr
  obtain ⟨s, same, hs⟩ := h hr
  obtain ⟨r', run, hr'⟩ := last hs
  exact ⟨r', same.trans run, hr'⟩

end Resumes
end AresSyntax
