import AresSyntax.Proofs.Program.Streaming

/-!
The levels of nesting that are counted are those of the open brackets.

* `Script.trail_levels`: the depth where a level is entered, from the tokens taken so far;
* `Script.run_limited`: a run under a limit is the run without one up to the first level beyond it;
* `nesting_exact`: the levels of programs, and when one is refused;
* `NestsWithin`, `parse_limited`: the texts that have the same tree under a limit.
-/
namespace AresSyntax

/-- Holds for the brackets that are a level of nesting: all but those of parameter lists. -/
def Bracket.isLevel : Bracket → Bool
  | parameters _ => false
  | _ => true

/-- The levels are the open brackets that are a level, and one more for each open body of a
subroutine without a name. -/
theorem Brackets.levels_eq (b : Brackets) :
    b.levels = b.opened.countP Bracket.isLevel + b.opened.count .body := by
  obtain ⟨opened, heading⟩ := b
  induction opened with
  | nil => rfl
  | cons x xs ih =>
    have others : levels ⟨xs, .none⟩ = levels ⟨xs, heading⟩ := rfl
    rw [levels_cons, others, ih, List.countP_cons, List.count_cons]
    cases x <;> simp [Bracket.levels, Bracket.isLevel] <;> omega

/-- Holds where a level beyond the limit is entered. -/
def Point.Exceeds (most : Nat) (p : Point) : Prop := p.entered ≠ none ∧ most < p.reader.depth

instance (most : Nat) : DecidablePred (Point.Exceeds most) :=
  fun p => inferInstanceAs (Decidable (p.entered ≠ none ∧ most < p.reader.depth))

namespace Script

variable {α : Type} {s : Script α} {w : Site} {post : α → Site} {r r' : Reader}
  {taken : List Token} {limit : Option Nat} {most : Nat} {t : Token}

/-- Where a level is entered, the reader counts the levels of the brackets that are open behind the
tokens taken so far, and one more for an expression. -/
theorem trail_levels (h : s.Keeps w post) (hr : w.Holds r)
    (open_ : w.brackets = Brackets.ofTokens taken) :
    ∀ p ∈ s.trail limit taken r, ∀ level, p.entered = some level →
      p.reader.depth = (Brackets.ofTokens p.taken).levels + level.extra := by
  induction s generalizing w r taken with
  | done a | refuse e =>
    intro p hp level entered
    obtain rfl := List.mem_singleton.1 hp
    cases entered
  | look next ih => exact ih _ _ _ (h _ _ _ hr.current) hr.seeing open_
  | take next ih =>
    intro p hp level entered
    rw [trail] at hp
    obtain rfl | hp := List.mem_cons.1 hp
    · cases entered
    cases run : Parse.advance r with
    | error f r' => simp [run] at hp
    | ok t r' =>
      simp only [run] at hp
      obtain ⟨_, _, _, same, _⟩ := Reader.advance_eq_ok.1 run
      refine ih t (h t (same ▸ hr.current)) (hr.advance run) ?_ p hp level entered
      rw [Brackets.ofTokens_append_singleton, ← open_]
      rfl
  | enter level next ih =>
    intro p hp level' entered
    rw [trail] at hp
    obtain rfl | hp := List.mem_cons.1 hp
    · cases entered
    obtain rfl | hp := List.mem_cons.1 hp
    · cases entered
      rw [← open_, ← h.1, ← hr.depth]
      rfl
    split at hp
    · cases hp
    · exact ih h.2 hr.deeper open_ p hp level' entered
  | leave next ih =>
    intro p hp level entered
    obtain rfl | hp := List.mem_cons.1 hp
    · cases entered
    · exact ih h hr.shallower open_ p hp level entered
  | mark inside next ih =>
    intro p hp level entered
    obtain rfl | hp := List.mem_cons.1 hp
    · cases entered
    · exact ih h (hr.marked inside) open_ p hp level entered

/-- A run under a limit is the run without one up to the first level beyond the limit, where it is
refused. -/
theorem run_limited (s : Script α) (most : Nat) (taken : List Token) (r : Reader) :
    s.run (some most) r = match (s.trail none taken r).find? (·.Exceeds most) with
      | some p => .error (.grammar .nestedTooDeeply p.reader.current) p.reader
      | none => s.run none r := by
  induction s generalizing r taken with
  | done a | refuse e => rfl
  | look next ih => exact ih _ _ _ _ _
  | take next ih =>
    rw [trail, List.find?_cons_of_neg (by simp [Point.Exceeds])]
    cases run : Parse.advance r with
    | ok t r' =>
      rw [run_take run, run_take run]
      exact ih t _ r'
    | error f r' =>
      rw [run_take_error run, run_take_error run]
      rfl
  | enter level next ih =>
    rw [trail, List.find?_cons_of_neg (by simp [Point.Exceeds])]
    have free : none.any (· < r.depth + 1) = false := rfl
    rw [run_enter free]
    simp only [free, Bool.false_eq_true, if_false]
    cases beyond : (some most).any (· < r.depth + 1) with
    | true =>
      have exceeds : Point.Exceeds most ⟨taken, r.deeper, some level⟩ :=
        ⟨Option.some_ne_none level, of_decide_eq_true beyond⟩
      rw [run_enter_refused beyond, List.find?_cons_of_pos (by simpa using exceeds)]
      rfl
    | false =>
      have within : ¬ Point.Exceeds most ⟨taken, r.deeper, some level⟩ :=
        fun exceeds => of_decide_eq_false beyond exceeds.2
      rw [run_enter beyond, List.find?_cons_of_neg (by simpa using within)]
      exact ih taken r.deeper
  | leave next ih =>
    rw [trail, List.find?_cons_of_neg (by simp [Point.Exceeds])]
    exact ih taken r.shallower
  | mark inside next ih =>
    rw [trail, List.find?_cons_of_neg (by simp [Point.Exceeds])]
    exact ih taken (r.marked inside)

/-- From within the limit on, a run is refused for its depth where it enters the first level beyond
the limit, and only there. -/
theorem refused_iff (h : s.Keeps w post) (hr : w.Holds r) (within : r.depth ≤ most) :
    (∃ r', s.run (some most) r = .error (.grammar .nestedTooDeeply t) r') ↔
      ∃ p ∈ s.trail (some most) taken r,
        p.entered ≠ none ∧ p.reader.depth = most + 1 ∧ p.reader.current = t := by
  induction s generalizing w r taken with
  | done a =>
    simp only [trail, List.mem_singleton, exists_eq_left, ne_eq, not_true_eq_false, false_and,
      iff_false]
    rintro ⟨r', run⟩
    cases run
  | refuse e =>
    have other : e ≠ .nestedTooDeeply := h
    simp [run, trail, Parse.refuse, other]
  | look next ih => exact ih _ _ _ (h _ _ _ hr.current) hr.seeing within
  | take next ih =>
    simp only [trail, List.mem_cons, exists_eq_or_imp, ne_eq, not_true_eq_false, false_and,
      false_or]
    cases taken' : Parse.advance r with
    | ok u r' =>
      obtain ⟨_, _, _, same, rfl⟩ := Reader.advance_eq_ok.1 taken'
      rw [run_take taken']
      exact ih u (h u (same ▸ hr.current)) (hr.advance taken') within
    | error f r' =>
      rw [run_take_error taken']
      unfold Parse.advance at taken'
      split at taken'
      · cases taken'
      · cases taken'
        simp
  | enter level next ih =>
    simp only [trail, List.mem_cons, exists_eq_or_imp, ne_eq, not_true_eq_false, false_and,
      false_or, reduceCtorEq, not_false_eq_true, true_and]
    cases beyond : (some most).any (· < r.depth + 1) with
    | true =>
      have more : most < r.depth + 1 := of_decide_eq_true beyond
      have depth : r.depth = most := by omega
      rw [run_enter_refused beyond]
      simp [depth, Reader.deeper]
    | false =>
      have less : ¬ most < r.depth + 1 := of_decide_eq_false beyond
      have depth : r.deeper.depth ≠ most + 1 := by simp only [Reader.deeper]; omega
      rw [run_enter beyond]
      simp only [depth, false_and, false_or, Bool.false_eq_true, if_false]
      exact ih h.2 hr.deeper (Nat.not_lt.1 less)
  | leave next ih =>
    simp only [trail, List.mem_cons, exists_eq_or_imp, ne_eq, not_true_eq_false, false_and,
      false_or]
    exact ih h hr.shallower (Nat.le_trans (Nat.sub_le _ _) within)
  | mark inside next ih =>
    simp only [trail, List.mem_cons, exists_eq_or_imp, ne_eq, not_true_eq_false, false_and,
      false_or]
    exact ih h (hr.marked inside) within

end Script

/-- Wherever a program enters a block or an expression, the depth is the number of open brackets in
the tokens taken so far, without those of parameter lists, and one more for each subroutine without
a name whose body is open, and for the expression itself. With a limit the program is refused where
the depth gets beyond it, at the current token, and is what it is without a limit if that enters no
level beyond it. -/
theorem nesting_exact (most : Nat) (text file : String) :
    (∀ f limit, Reader.start (Cursor.ofText file text).stream = .error f →
      parse ⟨limit, none⟩ text file = .error (.reading f)) ∧
    ∀ r n, Reader.start (Cursor.ofText file text).stream = .ok r → r.work < n →
      (∀ limit, Parse.program ⟨limit, none⟩ r = (Script.program n).run limit r ∧
        ∀ p ∈ (Script.program n).trail limit [] r, p.Standing (outcomes text file) ∧
          ∀ level, p.entered = some level → p.reader.depth =
            (Brackets.ofTokens p.taken).opened.countP Bracket.isLevel +
              (Brackets.ofTokens p.taken).opened.count .body + level.extra) ∧
      (∀ t, parse ⟨some most, none⟩ text file = .error (.grammar .nestedTooDeeply t) ↔
        ∃ p ∈ (Script.program n).trail (some most) [] r,
          p.entered ≠ none ∧ p.reader.depth = most + 1 ∧ p.reader.current = t) ∧
      parse ⟨some most, none⟩ text file =
        match ((Script.program n).trail none [] r).find? (·.Exceeds most) with
        | some p => .error (.grammar .nestedTooDeeply p.reader.current)
        | none => parse ⟨none, none⟩ text file := by
  refine ⟨fun f limit => TokenStream.parse_of_start_error, fun r n started room => ?_⟩
  obtain ⟨stands, top, _⟩ := Reader.start_standsAt started
  rw [nth_stream_eq] at stands
  have keeps := Script.program_keeps n
  have place : (Site.within [] 0 n).Holds r := ⟨top, room, nofun⟩
  have result (limit : Option Nat) : parse ⟨limit, none⟩ text file =
      Parse.answer ((Script.program n).run limit r) := TokenStream.parse_run started room
  refine ⟨fun limit => ⟨Parse.program_run top room, fun p hp => ⟨?_, fun level entered => ?_⟩⟩,
    fun t => ?_, ?_⟩
  · exact Script.trail_standing _ (by simp) stands p hp
  · rw [← Brackets.levels_eq]
    exact Script.trail_levels keeps place rfl p hp level entered
  · rw [← Script.refused_iff keeps place (top ▸ Nat.zero_le _), result]
    cases (Script.program n).run (some most) r <;> simp [Parse.answer]
  · rw [result, result, Script.run_limited _ most [] r]
    cases ((Script.program n).trail none [] r).find? (·.Exceeds most) <;> rfl

/-- Holds for texts in which no level of nesting beyond `most` is entered, if there is no limit. -/
def NestsWithin (most : Nat) (text file : String) : Prop :=
  ∀ r, Reader.start (Cursor.ofText file text).stream = .ok r →
    ∀ p ∈ (Script.program (r.work + 1)).trail none [] r, ¬ p.Exceeds most

/-- The trees that are found under a limit are those that are found without one, of the texts that
nest within the limit. -/
theorem parse_limited {most : Nat} {text file : String} {t : Tree} :
    parse ⟨some most, none⟩ text file = .ok t ↔
      parse ⟨none, none⟩ text file = .ok t ∧ NestsWithin most text file := by
  unfold NestsWithin
  rw [parse_eq_stream, parse_eq_stream]
  cases started : Reader.start (Cursor.ofText file text).stream with
  | error f => simp [TokenStream.parse_of_start_error started]
  | ok r =>
    have room := Nat.lt_succ_self r.work
    rw [TokenStream.parse_run started room, TokenStream.parse_run started room,
      Script.run_limited _ most [] r]
    simp only [Except.ok.injEq, forall_eq']
    cases beyond : ((Script.program (r.work + 1)).trail none [] r).find? (·.Exceeds most) with
    | none =>
      have within := List.find?_eq_none.1 beyond
      simp only [decide_eq_true_eq] at within
      exact ⟨fun found => ⟨found, within⟩, And.left⟩
    | some p =>
      have exceeds : p.Exceeds most := by simpa using List.find?_some beyond
      have visited := List.mem_of_find?_eq_some beyond
      constructor
      · exact fun found => by cases found
      · exact fun ⟨_, within⟩ => absurd exceeds (within p visited)

end AresSyntax
