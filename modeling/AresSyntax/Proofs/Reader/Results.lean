import AresSyntax.Grammar.Reader

/-!
When a request to a reader gives a result, and which one: one equivalence for each way to build
a request.
-/
namespace AresSyntax.Parse

variable {α β : Type} {r r' : Reader}

@[simp] theorem pure_eq_ok {a b : α} :
    (pure a : Parse α) r = .ok b r' ↔ a = b ∧ r = r' :=
  ⟨fun h => by cases h; exact ⟨rfl, rfl⟩, fun ⟨h, h'⟩ => by subst h h'; rfl⟩

@[simp] theorem bind_eq_ok {p : Parse α} {f : α → Parse β} {b : β} :
    (p >>= f) r = .ok b r' ↔ ∃ a s, p r = .ok a s ∧ f a s = .ok b r' := by
  change EStateM.bind p f r = .ok b r' ↔ _
  unfold EStateM.bind
  cases p r with
  | ok a s => exact ⟨fun h => ⟨a, s, rfl, h⟩, by rintro ⟨_, _, ⟨⟩, h⟩; exact h⟩
  | error e s => exact ⟨nofun, by rintro ⟨_, _, ⟨⟩, _⟩⟩

theorem bind_ok {p : Parse α} {f : α → Parse β} {a : α} (h : p r = .ok a r') :
    (p >>= f) r = f a r' := by
  change EStateM.bind p f r = _
  rw [EStateM.bind, h]

theorem bind_error {p : Parse α} {f : α → Parse β} {e : ParseFault} (h : p r = .error e r') :
    (p >>= f) r = .error e r' := by
  change EStateM.bind p f r = _
  rw [EStateM.bind, h]

/-- Where two requests give the same, they do so with the same request behind them. -/
theorem bind_eq_bind {p q : Parse α} {f : α → Parse β} {s : Reader} (h : p r = q s) :
    (p >>= f) r = (q >>= f) s := by
  change EStateM.bind p f r = EStateM.bind q f s
  rw [EStateM.bind, EStateM.bind, h]

@[simp] theorem map_eq_ok {p : Parse α} {f : α → β} {b : β} :
    (f <$> p) r = .ok b r' ↔ ∃ a, p r = .ok a r' ∧ f a = b := by
  rw [← bind_pure_comp]
  simp only [bind_eq_ok, pure_eq_ok]
  constructor
  · rintro ⟨a, s, h, rfl, rfl⟩; exact ⟨a, h, rfl⟩
  · rintro ⟨a, h, rfl⟩; exact ⟨a, r', h, rfl, rfl⟩

@[simp] theorem refuse_eq_ok {e : GrammarError} {a : α} : refuse e r = .ok a r' ↔ False :=
  ⟨nofun, False.elim⟩

@[simp] theorem current_bind {f : Token → Parse β} : (current >>= f) r = f r.current r := rfl

@[simp] theorem check_bind {k : Kind} {f : Bool → Parse β} :
    (check k >>= f) r = f (r.current.kind = k) r := rfl

@[simp] theorem get_bind {f : Reader → Parse β} : ((get : Parse Reader) >>= f) r = f r r := rfl

@[simp] theorem modify_bind {g : Reader → Reader} {f : Unit → Parse β} :
    ((modify g : Parse Unit) >>= f) r = f () (g r) := rfl

/-- The two branches of a choice. -/
@[simp] theorem ite_eq_ok {c : Prop} [Decidable c] {p q : Parse α} {a : α} :
    (if c then p else q) r = .ok a r' ↔ c ∧ p r = .ok a r' ∨ ¬ c ∧ q r = .ok a r' := by
  by_cases h : c <;> simp [h]

theorem accept_eq_ok {k : Kind} {b : Bool} :
    accept k r = .ok b r' ↔
      r.current.kind = k ∧ b = true ∧ (∃ t, advance r = .ok t r') ∨
        r.current.kind ≠ k ∧ b = false ∧ r = r' := by
  by_cases h : r.current.kind = k <;> cases b <;> simp [accept, h]

theorem expect_eq_ok {k : Kind} {e : Expectation} {t : Token} :
    expect k e r = .ok t r' ↔ r.current.kind = k ∧ advance r = .ok t r' := by
  by_cases h : r.current.kind = k <;> simp [expect, h]

/-- The limit allows a level unless it is refused. -/
theorem any_lt_eq_false {limit : Option Nat} {depth : Nat} :
    limit.any (· < depth) = false ↔ ∀ most ∈ limit, depth ≤ most := by
  cases limit <;> simp

theorem nested_eq_ok {limit : Option Nat} {body : Parse α} {a : α} :
    nested limit body r = .ok a r' ↔
      (∀ most ∈ limit, r.depth + 1 ≤ most) ∧
        ∃ s, body { r with depth := r.depth + 1 } = .ok a s ∧
          { s with depth := s.depth - 1 } = r' := by
  rw [← any_lt_eq_false]
  cases h : limit.any (· < r.depth + 1) with
  | true =>
    simp only [nested, modify_bind, get_bind, h, ↓reduceIte, bind_eq_ok, refuse_eq_ok, false_and,
      exists_false, Bool.true_eq_false]
  | false =>
    simp only [nested, modify_bind, get_bind, h, Bool.false_eq_true, ↓reduceIte, bind_eq_ok,
      pure_eq_ok, true_and]
    constructor
    · rintro ⟨_, s, hs, rfl, rfl⟩; exact ⟨s, hs, rfl⟩
    · rintro ⟨s, hs, rfl⟩; exact ⟨a, s, hs, rfl, rfl⟩

theorem inSubroutine_eq_ok {body : Parse α} {a : α} :
    inSubroutine body r = .ok a r' ↔
      ∃ s, body { r with inSubroutine := true } = .ok a s ∧
        { s with inSubroutine := r.inSubroutine } = r' := by
  simp only [inSubroutine, modify_bind, get_bind, bind_eq_ok, pure_eq_ok]
  constructor
  · rintro ⟨_, s, hs, rfl, rfl⟩; exact ⟨s, hs, rfl⟩
  · rintro ⟨s, hs, rfl⟩; exact ⟨a, s, hs, rfl, rfl⟩

/-- Faults can be compared also where what is given without one can not. -/
instance decidableEqError {ε : Type} [DecidableEq ε] {given : Except ε α} {e : ε} :
    Decidable (given = .error e) :=
  match given with
  | .ok _ => isFalse nofun
  | .error f => decidable_of_iff (f = e) ⟨congrArg _, Except.error.inj⟩

end AresSyntax.Parse
