import AresSyntax.Proofs.Reader.Tokens

/-!
Repetition. A step that takes a token whenever it gives a result can not be repeated more often
than there are tokens, so the bound that ends every repetition is never what ends it.

* `Lowering`, `iterate_of_lowering`: steps that lower a measure, and their repetition;
* `iterate_eq`, `collect_eq`: a repetition is its first step and the repetition behind it;
* `Repeats`, `Collects`: the repetitions that give a result, step by step.
-/
namespace AresSyntax

theorem Reader.length_tokens_pos (r : Reader) : 0 < r.tokens.length := by
  obtain ⟨ts, h⟩ := r.tokens_eq_cons
  simp [h]

theorem TokenStream.length_listingOf_le (os : List Outcome) :
    (listingOf os).1.length ≤ os.length := by
  induction os with
  | nil => exact Nat.le_refl _
  | cons o os ih =>
    cases o with
    | error f => exact Nat.zero_le _
    | ok t => simpa [listingOf] using ih

/-- All tokens but the last are among the outcomes that bound a repetition. -/
theorem Reader.length_tokens_le (r : Reader) : r.tokens.length ≤ r.ahead.length + 1 := by
  have h := (upToEnd_isPrefix (r.current :: r.next :: r.stream.listing.1)).length_le
  have hl := TokenStream.length_listingOf_le (r.stream.pending ++ [r.stream.ending.outcome])
  simp only [List.length_cons, List.length_append, List.length_nil] at h hl
  simp only [tokens, ahead, List.length_cons]
  simp only [TokenStream.listing] at h ⊢
  omega

namespace Parse

variable {α : Type}

/-- The repetitions of a step that give a result. -/
inductive Repeats (step : α → Parse (Option α)) : α → Reader → α → Reader → Prop
  | stop {a : α} {r r' : Reader} (last : step a r = .ok none r') : Repeats step a r a r'
  | next {a b c : α} {r s r' : Reader} (first : step a r = .ok (some b) s)
      (others : Repeats step b s c r') : Repeats step a r c r'

/-- A repetition ends with a step that gives nothing. -/
theorem iterate_of_none {step : α → Parse (Option α)} {a : α} {r r' : Reader}
    (h : step a r = .ok none r') : iterate step a r = .ok a r' := by
  rw [iterate, Reader.ahead, iterateWithin, bind_ok h]
  rfl

theorem iterate_of_error {step : α → Parse (Option α)} {a : α} {e : ParseFault} {r r' : Reader}
    (h : step a r = .error e r') : iterate step a r = .error e r' := by
  rw [iterate, Reader.ahead, iterateWithin, bind_error h]

section
variable {P : Reader → Prop} {μ : Reader → Nat} {step : α → Parse (Option α)}

/-- Holds for a request that keeps `P` and lowers the measure `μ` whenever it gives something. -/
def Lowering (P : Reader → Prop) (μ : Reader → Nat) (step : Parse (Option α)) : Prop :=
  ∀ r a r', P r → step r = .ok (some a) r' → P r' ∧ μ r' < μ r

/-- With enough outcomes to count down, a bounded repetition does not come to its bound. -/
theorem iterateWithin_of_lowering (hs : ∀ a, (step a).Lowering P μ) {os : List Outcome} {a : α}
    {r : Reader} (hr : P r) (ho : μ r ≤ os.length) :
    iterateWithin step os a r = match step a r with
      | .ok none r' => .ok a r'
      | .ok (some b) r' => iterateWithin step os.tail b r'
      | .error e r' => .error e r' := by
  cases h : step a r with
  | error e r' => cases os <;> exact bind_error h
  | ok o r' =>
    cases o with
    | none => cases os <;> exact bind_ok h
    | some b =>
      have less := (hs a r b r' hr h).2
      cases os with
      | nil => simp only [List.length_nil] at ho; omega
      | cons o os => exact bind_ok h

theorem iterateWithin_congr_of_lowering (hs : ∀ a, (step a).Lowering P μ) {os os' : List Outcome}
    {a : α} {r : Reader} (hr : P r) (ho : μ r ≤ os.length) (ho' : μ r ≤ os'.length) :
    iterateWithin step os a r = iterateWithin step os' a r := by
  induction os generalizing os' a r with
  | nil =>
    rw [iterateWithin_of_lowering hs hr ho, iterateWithin_of_lowering hs hr ho']
    cases h : step a r with
    | error e r' => rfl
    | ok o r' =>
      cases o with
      | none => rfl
      | some b =>
        have less := (hs a r b r' hr h).2
        simp only [List.length_nil] at ho
        omega
  | cons o os ih =>
    rw [iterateWithin_of_lowering hs hr ho, iterateWithin_of_lowering hs hr ho']
    cases h : step a r with
    | error e r' => rfl
    | ok o r' =>
      cases o with
      | none => rfl
      | some b =>
        obtain ⟨hr', less⟩ := hs a r b r' hr h
        simp only [List.length_cons] at ho
        exact ih hr' (by omega) (by rw [List.length_tail]; omega)

/-- A repetition is its first step, and the repetition from there if the step gave a result: there
are at least as many outcomes to see as the measure allows steps. -/
theorem iterate_of_lowering (room : ∀ r, P r → μ r ≤ r.ahead.length)
    (hs : ∀ a, (step a).Lowering P μ) {a : α} {r : Reader} (hr : P r) :
    iterate step a r = match step a r with
      | .ok none r' => .ok a r'
      | .ok (some b) r' => iterate step b r'
      | .error e r' => .error e r' := by
  have enough := room r hr
  unfold iterate
  rw [iterateWithin_of_lowering hs hr enough]
  cases h : step a r with
  | error e r' => rfl
  | ok o r' =>
    cases o with
    | none => rfl
    | some b =>
      obtain ⟨hr', less⟩ := hs a r b r' hr h
      exact iterateWithin_congr_of_lowering hs hr' (by rw [List.length_tail]; omega) (room r' hr')

theorem iterate_eq_ok_of_lowering (room : ∀ r, P r → μ r ≤ r.ahead.length)
    (hs : ∀ a, (step a).Lowering P μ) {a c : α} {r r' : Reader} (hr : P r) :
    iterate step a r = .ok c r' ↔ Repeats step a r c r' := by
  constructor
  · intro h
    induction hn : μ r using Nat.strongRecOn generalizing a r with
    | ind n ih =>
      rw [iterate_of_lowering room hs hr] at h
      cases ha : step a r with
      | error e s => rw [ha] at h; cases h
      | ok o s =>
        rw [ha] at h
        cases o with
        | none => cases h; exact .stop ha
        | some b =>
          obtain ⟨hr', less⟩ := hs a r b s hr ha
          exact .next ha (ih _ (hn ▸ less) hr' h rfl)
  · intro h
    induction h with
    | stop last => rw [iterate_of_lowering room hs hr, last]
    | next first _ ih =>
      rw [iterate_of_lowering room hs hr, first]
      exact ih (hs _ _ _ _ hr first).1

end

/-- Holds for a request that takes a token of the text whenever it gives something. -/
def Advancing (step : Parse (Option α)) : Prop :=
  ∀ r a r', r.Regular → step r = .ok (some a) r' →
    r'.Regular ∧ r'.tokens.length < r.tokens.length

/-- The end token is not one that is taken. -/
theorem Advancing.lowering {step : Parse (Option α)} (hs : step.Advancing) :
    step.Lowering Reader.Regular fun r => r.tokens.length - 1 := by
  intro r a r' hr h
  obtain ⟨hr', less⟩ := hs r a r' hr h
  have pos := r'.length_tokens_pos
  refine ⟨hr', ?_⟩
  show r'.tokens.length - 1 < r.tokens.length - 1
  omega

section
variable {step : α → Parse (Option α)}

/-- A repetition is its first step, and the repetition from there if the step gave a result. -/
theorem iterate_eq (hs : ∀ a, (step a).Advancing) {a : α} {r : Reader} (hr : r.Regular) :
    iterate step a r = match step a r with
      | .ok none r' => .ok a r'
      | .ok (some b) r' => iterate step b r'
      | .error e r' => .error e r' :=
  iterate_of_lowering (fun r _ => Nat.sub_le_of_le_add r.length_tokens_le)
    (fun a => (hs a).lowering) hr

theorem iterate_eq_ok (hs : ∀ a, (step a).Advancing) {a c : α} {r r' : Reader}
    (hr : r.Regular) : iterate step a r = .ok c r' ↔ Repeats step a r c r' :=
  iterate_eq_ok_of_lowering (fun r _ => Nat.sub_le_of_le_add r.length_tokens_le)
    (fun a => (hs a).lowering) hr

/-- What holds at the start and is kept by every step holds where the step gives nothing more. -/
theorem iterate_spec (hs : ∀ a, (step a).Advancing) {Inv : α → Reader → Prop} {a b : α}
    {r r' : Reader} (hr : r.Regular) (start : Inv a r)
    (kept : ∀ {a b r r'}, Inv a r → step a r = .ok (some b) r' → Inv b r')
    (h : iterate step a r = .ok b r') : ∃ s, Inv b s ∧ step b s = .ok none r' := by
  have run := (iterate_eq_ok hs hr).1 h
  clear h hr
  induction run with
  | stop last => exact ⟨_, start, last⟩
  | next first _ ih => exact ih (kept start first)

end

section
variable {P : Reader → Prop} {μ : Reader → Nat} {step : Parse (Option α)}

/-- With enough outcomes to count down, a bounded collection does not come to its bound. -/
theorem collectWithin_of_lowering (hs : step.Lowering P μ) {os : List Outcome} {r : Reader}
    (hr : P r) (ho : μ r ≤ os.length) :
    collectWithin step os r = match step r with
      | .ok none r' => .ok [] r'
      | .ok (some a) r' => (do return a :: (← collectWithin step os.tail)) r'
      | .error e r' => .error e r' := by
  cases h : step r with
  | error e r' => cases os <;> exact bind_error h
  | ok o r' =>
    cases o with
    | none => cases os <;> exact bind_ok h
    | some b =>
      have less := (hs r b r' hr h).2
      cases os with
      | nil => simp only [List.length_nil] at ho; omega
      | cons o os => exact bind_ok h

theorem collectWithin_congr_of_lowering (hs : step.Lowering P μ) {os os' : List Outcome}
    {r : Reader} (hr : P r) (ho : μ r ≤ os.length) (ho' : μ r ≤ os'.length) :
    collectWithin step os r = collectWithin step os' r := by
  induction os generalizing os' r with
  | nil =>
    rw [collectWithin_of_lowering hs hr ho, collectWithin_of_lowering hs hr ho']
    cases h : step r with
    | error e r' => rfl
    | ok o r' =>
      cases o with
      | none => rfl
      | some b =>
        have less := (hs r b r' hr h).2
        simp only [List.length_nil] at ho
        omega
  | cons o os ih =>
    rw [collectWithin_of_lowering hs hr ho, collectWithin_of_lowering hs hr ho']
    cases h : step r with
    | error e r' => rfl
    | ok o r' =>
      cases o with
      | none => rfl
      | some b =>
        obtain ⟨hr', less⟩ := hs r b r' hr h
        simp only [List.length_cons] at ho
        exact bind_eq_bind (ih hr' (by omega) (by rw [List.length_tail]; omega))

/-- A collection is its first step, and what is collected from there if the step gave a result:
there are at least as many outcomes to see as the measure allows steps. -/
theorem collect_of_lowering (room : ∀ r, P r → μ r ≤ r.ahead.length) (hs : step.Lowering P μ)
    {r : Reader} (hr : P r) :
    collect step r = match step r with
      | .ok none r' => .ok [] r'
      | .ok (some a) r' => (do return a :: (← collect step)) r'
      | .error e r' => .error e r' := by
  have enough := room r hr
  unfold collect
  rw [collectWithin_of_lowering hs hr enough]
  cases h : step r with
  | error e r' => rfl
  | ok o r' =>
    cases o with
    | none => rfl
    | some b =>
      obtain ⟨hr', less⟩ := hs r b r' hr h
      exact bind_eq_bind (collectWithin_congr_of_lowering hs hr'
        (by rw [List.length_tail]; omega) (room r' hr'))

end

section
variable {step : Parse (Option α)}

/-- A collection is its first step, and what is collected from there if the step gave a result. -/
theorem collect_eq (hs : step.Advancing) {r : Reader} (hr : r.Regular) :
    collect step r = match step r with
      | .ok none r' => .ok [] r'
      | .ok (some a) r' => (do return a :: (← collect step)) r'
      | .error e r' => .error e r' :=
  collect_of_lowering (fun r _ => Nat.sub_le_of_le_add r.length_tokens_le) hs.lowering hr

/-- The collections of the results of a step. -/
inductive Collects (step : Parse (Option α)) : Reader → List α → Reader → Prop
  | stop {r r' : Reader} (last : step r = .ok none r') : Collects step r [] r'
  | next {a : α} {as : List α} {r s r' : Reader} (first : step r = .ok (some a) s)
      (others : Collects step s as r') : Collects step r (a :: as) r'

theorem collect_eq_ok (hs : step.Advancing) {as : List α} {r r' : Reader} (hr : r.Regular) :
    collect step r = .ok as r' ↔ Collects step r as r' := by
  constructor
  · intro h
    induction hn : r.tokens.length using Nat.strongRecOn generalizing as r with
    | ind n ih =>
      rw [collect_eq hs hr] at h
      cases ha : step r with
      | error e s => rw [ha] at h; cases h
      | ok o s =>
        rw [ha] at h
        cases o with
        | none => cases h; exact .stop ha
        | some b =>
          obtain ⟨hr', less⟩ := hs r b s hr ha
          obtain ⟨bs, s', hb, rfl, rfl⟩ := by simpa only [bind_eq_ok, pure_eq_ok] using h
          exact .next ha (ih _ (hn ▸ less) hr' hb rfl)
  · intro h
    induction h with
    | stop last => rw [collect_eq hs hr, last]
    | next first _ ih =>
      rw [collect_eq hs hr, first]
      exact bind_ok (ih (hs _ _ _ hr first).1)

theorem Collects.last {as : List α} {r r' : Reader} (h : Collects step r as r') :
    ∃ s, step s = .ok none r' := by
  induction h with
  | stop last => exact ⟨_, last⟩
  | next _ _ ih => exact ih

end
end Parse
end AresSyntax
