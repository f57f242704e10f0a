import AresSyntax.Proofs.Script.Sites
import AresSyntax.Proofs.Script.Standing

/-!
What the lookahead decides. It tells two rules apart only where both take the current token, so no
token is refused for what stands behind it.

* `Script.Goes`: the script takes the current token before it gives or refuses anything;
* `Script.Steady`: scripts that the lookahead tells apart take the current token;
* `Script.Steady.refuses`: with the same tokens up to the one that a run refuses, there is no
  result.
-/
namespace AresSyntax

/-- Taking a token changes neither the depth nor whether the place is in a subroutine. -/
theorem Reader.advance_keeps {r r' : Reader} {t : Token} (taken : Parse.advance r = .ok t r') :
    r.current = t ∧ r'.depth = r.depth ∧ r'.inSubroutine = r.inSubroutine := by
  obtain ⟨_, _, _, same, rfl⟩ := advance_eq_ok.1 taken
  exact ⟨same, rfl, rfl⟩

namespace Script

variable {α β : Type} {k : Kind} {s : Script α} {w w' : Site} {post : α → Site}
  {limit : Option Nat} {r r' : Reader}

/-- Where the current token is of kind `k`, the script takes it before it gives or refuses anything,
but for a level beyond the limit. -/
def Goes (k : Kind) : Script α → Prop
  | done _ => False
  | refuse _ => False
  | look next => ∀ t u inside, t.kind = k → (next t u inside).Goes k
  | take _ => True
  | enter _ next => next.Goes k
  | leave next => next.Goes k
  | mark _ next => next.Goes k

theorem Goes.bind {f : α → Script β} (h : s.Goes k) : (s.bind f).Goes k := by
  induction s with
  | done a | refuse e => exact h.elim
  | look next ih => exact fun t u inside same => ih t u inside (h t u inside same)
  | take next => trivial
  | enter level next ih | leave next ih | mark inside next ih => exact ih h

/-- A run that goes asks for an outcome before it refuses a token. -/
theorem Goes.reads_pos {e : GrammarError} {t : Token} {q : Reader} (h : s.Goes k)
    (kind : r.current.kind = k) (run : s.run limit r = .error (.grammar e t) q)
    (other : e ≠ .nestedTooDeeply) : 0 < s.reads limit r := by
  induction s generalizing r with
  | done a | refuse e => exact h.elim
  | look next ih => exact ih _ _ _ (h _ _ _ kind) kind run
  | take next ih =>
    simp only [reads]
    split
    · exact Nat.succ_pos _
    · exact Nat.one_pos
  | enter level next ih =>
    cases beyond : limit.any (· < r.depth + 1) with
    | true =>
      rw [run_enter_refused beyond] at run
      cases run
      exact absurd rfl other
    | false =>
      rw [run_enter beyond] at run
      simp only [reads, beyond, Bool.false_eq_true, if_false]
      exact ih h kind run
  | leave next ih => exact ih h kind run
  | mark inside next ih => exact ih h kind run

/-- From the place `w` on, the lookahead tells scripts apart only if they take the current token. -/
def Steady : Script α → Site → Prop
  | done _, _ => True
  | refuse _, _ => True
  | look next, w => ∀ t u inside, w.Sees t.kind → (next t u inside).Steady (w.seeing t.kind) ∧
    ∀ u', next t u inside = next t u' inside ∨ (next t u inside).Goes t.kind
  | take next, w => ∀ t, w.Sees t.kind → (next t).Steady (w.taking t.kind)
  | enter _ next, w => next.Steady w.deeper
  | leave next, w => next.Steady w.shallower
  | mark _ next, w => next.Steady w

namespace Steady

theorem relax (h : s.Steady w') (before : w.Le w') : s.Steady w := by
  induction s generalizing w w' with
  | done a | refuse e => trivial
  | look next ih =>
    intro t u inside sees
    obtain ⟨later, apart⟩ := h t u inside (before.sees sees)
    exact ⟨ih t u inside later (before.seeing _), apart⟩
  | take next ih => exact fun t sees => ih t (h t (before.sees sees)) (before.taking _)
  | enter level next ih => exact ih h before.deeper
  | leave next ih => exact ih h before.shallower
  | mark inside next ih => exact ih h before

theorem bind {f : α → Script β} (h : s.Steady w) (keeps : s.Keeps w post)
    (next : ∀ a, (f a).Steady (post a)) : (s.bind f).Steady w := by
  induction s generalizing w with
  | done a => exact (next a).relax keeps
  | refuse e => trivial
  | look _ ih =>
    intro t u inside sees
    obtain ⟨later, apart⟩ := h t u inside sees
    refine ⟨ih t u inside later (keeps t u inside sees), fun u' => ?_⟩
    obtain same | goes := apart u'
    · exact .inl (congrArg (Script.bind · f) same)
    · exact .inr goes.bind
  | take _ ih => exact fun t sees => ih t (h t sees) (keeps t sees)
  | enter level _ ih => exact ih h keeps.2
  | leave _ ih => exact ih h keeps
  | mark inside _ ih => exact ih h keeps

/-- Where a run refuses a token, there is no result on any text with the same tokens up to this
one. Where the way depends on the next token the script takes the current one, so that the next one
is among those that agree. -/
theorem refuses {T T' : Nat → Outcome} {i : Nat} {e : GrammarError} {t : Token} {q : Reader}
    (stands : r.StandsAt T i) (stands' : r'.StandsAt T' i) (h : s.Steady w)
    (sees : w.Sees r.current.kind) (depth : r'.depth = r.depth)
    (inside : r'.inSubroutine = r.inSubroutine) (run : s.run limit r = .error (.grammar e t) q)
    (other : e ≠ .nestedTooDeeply) (agree : ∀ k ≤ i + s.reads limit r, T' k = T k) {a : α}
    {q' : Reader} : s.run limit r' ≠ .ok a q' := by
  have current : i ≤ i + s.reads limit r → r'.current = r.current := fun le =>
    Except.ok.inj ((stands'.current.symm.trans (agree i le)).trans stands.current)
  replace current := current (Nat.le_add_right _ _)
  induction s generalizing w r r' i with
  | done b => cases run
  | refuse e => exact fun run' => by cases run'
  | look next ih =>
    obtain ⟨later, apart⟩ := h r.current r.next r.inSubroutine sees
    have same : next r.current r.next r.inSubroutine =
        next r'.current r'.next r'.inSubroutine := by
      rw [current, inside]
      obtain same | goes := apart r'.next
      · exact same
      · have more := goes.reads_pos rfl run other
        have ahead : T' (i + 1) = T (i + 1) := agree (i + 1) (Nat.add_le_add_left more i)
        rw [stands.next, stands'.next] at ahead
        rw [Except.ok.inj ahead]
    have run' : (look next).run limit r' = (next r'.current r'.next r'.inSubroutine).run limit r' :=
      rfl
    rw [run', ← same]
    exact ih _ _ _ stands stands' later (fun j hj => Option.some.inj hj) depth inside run agree
      current
  | take next ih =>
    cases taken : Parse.advance r with
    | error f r₁ =>
      rw [run_take_error taken] at run
      obtain ⟨x, rfl, _⟩ := stands.advance_error taken
      cases run
    | ok u r₁ =>
      rw [run_take taken] at run
      simp only [reads, taken] at agree
      cases taken' : Parse.advance r' with
      | error f r₁' =>
        rw [run_take_error taken']
        exact fun run' => by cases run'
      | ok u' r₁' =>
        obtain ⟨first, depth₁, inside₁⟩ := Reader.advance_keeps taken
        obtain ⟨first', depth₁', inside₁'⟩ := Reader.advance_keeps taken'
        obtain rfl : u = u' := by rw [← first, ← first', current]
        rw [run_take taken']
        have stands₁ := (stands.advance taken).1
        have stands₁' := (stands'.advance taken').1
        have agree' : ∀ k ≤ i + 1 + (next u).reads limit r₁, T' k = T k :=
          fun k hk => agree k (by omega)
        refine ih u stands₁ stands₁' (h u (first ▸ sees)) (fun j hj => by cases hj)
          (by rw [depth₁', depth₁, depth]) (by rw [inside₁', inside₁, inside]) run agree' ?_
        exact Except.ok.inj ((stands₁'.current.symm.trans
          (agree' (i + 1) (Nat.le_add_right _ _))).trans stands₁.current)
  | enter level next ih =>
    cases beyond : limit.any (· < r.depth + 1) with
    | true =>
      rw [run_enter_refused beyond] at run
      cases run
      exact absurd rfl other
    | false =>
      have beyond' : limit.any (· < r'.depth + 1) = false := by rw [depth, beyond]
      rw [run_enter beyond] at run
      rw [run_enter beyond']
      simp only [reads, beyond, Bool.false_eq_true, if_false] at agree
      exact ih stands.deeper stands'.deeper h sees (congrArg (· + 1) depth) inside run agree
        current
  | leave next ih =>
    exact ih stands.shallower stands'.shallower h sees (congrArg (· - 1) depth) inside run agree
      current
  | mark enclosing next ih =>
    exact ih (stands.marked enclosing) (stands'.marked enclosing) h sees depth rfl run agree
      current

end Steady
end Script
end AresSyntax
