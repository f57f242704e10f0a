import AresSyntax.Proofs.Reader.Loops

/-!
Requests that refuse a token: which part of the request does so, and which parts never do.

* `bind_eq_error`: the first request that fails in a row;
* `expect_refuses`, `nested_refuses`, `inSubroutine_fails`: the requests of a reader;
* `Collecting`, `Repeating`: repetitions that fail, step by step.
-/
namespace AresSyntax.Parse

variable {α β : Type} {r r' : Reader} {f : ParseFault} {e : GrammarError} {t : Token}

theorem bind_eq_error {p : Parse α} {q : α → Parse β} : (p >>= q) r = .error f r' ↔
    p r = .error f r' ∨ ∃ a s, p r = .ok a s ∧ q a s = .error f r' := by
  change EStateM.bind p q r = .error f r' ↔ _
  unfold EStateM.bind
  cases p r with
  | ok a s => simp [and_assoc]
  | error x s => simp

theorem not_pure_fails {a : α} : (pure a : Parse α) r ≠ .error f r' := by
  intro h
  cases h

/-- What is made of a result never fails. -/
theorem of_bind_pure {p : Parse α} {g : α → β} (h : (p >>= fun a => pure (g a)) r = .error f r') :
    p r = .error f r' := by
  obtain failed | ⟨_, _, _, given⟩ := bind_eq_error.1 h
  · exact failed
  · exact absurd given not_pure_fails

theorem refuse_eq_error {e' : GrammarError} :
    (refuse e' : Parse α) r = .error (.grammar e t) r' ↔ e' = e ∧ r.current = t ∧ r = r' := by
  constructor
  · intro h
    cases h
    exact ⟨rfl, rfl, rfl⟩
  · rintro ⟨rfl, rfl, rfl⟩
    rfl

/-- Only a text refuses that a token is taken from it. -/
theorem not_advance_refuses : advance r ≠ .error (.grammar e t) r' := by
  intro h
  unfold advance at h
  split at h <;> cases h

theorem not_accept_refuses {k : Kind} : accept k r ≠ .error (.grammar e t) r' := by
  intro h
  unfold accept at h
  rw [check_bind] at h
  split at h
  · exact not_advance_refuses (of_bind_pure h)
  · exact not_pure_fails h

theorem expect_refuses {k : Kind} {x : Expectation} (h : expect k x r = .error (.grammar e t) r') :
    r = r' := by
  unfold expect at h
  rw [check_bind] at h
  split at h
  · exact absurd h not_advance_refuses
  · exact (refuse_eq_error.1 h).2.2

/-- The repetitions of a step that end with a fault. -/
inductive Repeating (step : α → Parse (Option α)) (f : ParseFault) : α → Reader → Reader → Prop
  | fail {a : α} {r r' : Reader} (last : step a r = .error f r') : Repeating step f a r r'
  | next {a b : α} {r s r' : Reader} (first : step a r = .ok (some b) s)
      (others : Repeating step f b s r') : Repeating step f a r r'

theorem iterate_eq_error {step : α → Parse (Option α)} {a : α}
    (h : iterate step a r = .error f r') : Repeating step f a r r' := by
  unfold iterate at h
  generalize r.ahead = os at h
  induction os generalizing a r with
  | nil =>
    obtain failed | ⟨_, _, _, given⟩ := bind_eq_error.1 h
    · exact .fail failed
    · exact absurd given not_pure_fails
  | cons o os ih =>
    obtain failed | ⟨b, s, first, others⟩ := bind_eq_error.1 h
    · exact .fail failed
    · cases b with
      | none => exact absurd others not_pure_fails
      | some b => exact .next first (ih others)

/-- The collections of the results of a step that end with a fault. -/
inductive Collecting (step : Parse (Option α)) (f : ParseFault) : Reader → Reader → Prop
  | fail {r r' : Reader} (last : step r = .error f r') : Collecting step f r r'
  | next {a : α} {r s r' : Reader} (first : step r = .ok (some a) s)
      (others : Collecting step f s r') : Collecting step f r r'

theorem collect_eq_error {step : Parse (Option α)} (h : collect step r = .error f r') :
    Collecting step f r r' := by
  unfold collect at h
  generalize r.ahead = os at h
  induction os generalizing r with
  | nil =>
    obtain failed | ⟨_, _, _, given⟩ := bind_eq_error.1 h
    · exact .fail failed
    · exact absurd given not_pure_fails
  | cons o os ih =>
    obtain failed | ⟨a, s, first, h⟩ := bind_eq_error.1 h
    · exact .fail failed
    · cases a with
      | none => exact absurd h not_pure_fails
      | some a =>
        obtain others | ⟨_, _, _, given⟩ := bind_eq_error.1 h
        · exact .next first (ih others)
        · exact absurd given not_pure_fails

theorem not_skipNewlines_refuses : skipNewlines r ≠ .error (.grammar e t) r' := by
  intro h
  have run := iterate_eq_error h
  clear h
  generalize () = start at run
  induction run with
  | fail last => exact not_accept_refuses (of_bind_pure last)
  | next _ _ ih => exact ih

theorem not_advanceLines_refuses : advanceLines r ≠ .error (.grammar e t) r' := by
  intro h
  obtain refused | ⟨_, _, _, h⟩ := bind_eq_error.1 h
  · exact not_advance_refuses refused
  · exact not_skipNewlines_refuses (of_bind_pure h)

/-- But for a level beyond the limit, what is refused one level further in is refused there. -/
theorem nested_refuses {limit : Option Nat} {body : Parse α} (other : e ≠ .nestedTooDeeply)
    (h : nested limit body r = .error (.grammar e t) r') :
    body { r with depth := r.depth + 1 } = .error (.grammar e t) r' := by
  simp only [nested, modify_bind, get_bind] at h
  split at h
  · obtain refused | ⟨_, _, given, _⟩ := bind_eq_error.1 h
    · exact absurd (refuse_eq_error.1 refused).1.symm other
    · exact (refuse_eq_ok.1 given).elim
  · obtain refused | ⟨_, _, _, h⟩ := bind_eq_error.1 h
    · exact refused
    · cases h

theorem inSubroutine_fails {body : Parse α} (h : inSubroutine body r = .error f r') :
    body { r with inSubroutine := true } = .error f r' := by
  simp only [inSubroutine, modify_bind, get_bind] at h
  obtain failed | ⟨_, _, _, h⟩ := bind_eq_error.1 h
  · exact failed
  · cases h

end AresSyntax.Parse
