import AresSyntax.Proofs.Script.Standing
import AresSyntax.Proofs.Script.Rules

/-!
Programs follow one script, whatever is the limit on levels of nesting.

* `Script.program`, `Script.programAt`: the script of programs, for any bound above the tokens left;
* `Parse.program_recast`, `Parse.recast_program`: the program of recast tokens is the recast
  program;
* `Parse.program_run`, `parse_run`: a program, and the tree of a text, by the script.
-/
namespace AresSyntax

/-- Leaves all as it is. -/
def Recast.same : Recast := ⟨fun _ s => s, fun _ v => v, id⟩

theorem Token.recast_same (t : Token) : t.recast .same = t := by
  simp [Token.recast, Recast.same]

mutual

theorem Tree.recast_same : ∀ t : Tree, t.recast .same = t
  | .node t cs => by rw [Tree.recast, t.recast_same, Tree.recastAll_same cs]

theorem Tree.recastAll_same : ∀ cs : List Tree, Tree.recastAll .same cs = cs
  | [] => rfl
  | c :: cs => by rw [Tree.recastAll, c.recast_same, Tree.recastAll_same cs]

end

theorem ReadFault.recast_same (f : ReadFault) : f.recast .same = f := by
  cases f <;> rfl

theorem ParseFault.recast_same (f : ParseFault) : f.recast .same = f := by
  cases f with
  | reading f => rw [recast, f.recast_same]
  | grammar e t => rw [recast, t.recast_same]

theorem Outcome.recast_same (o : Outcome) : Outcome.recast .same o = o := by
  cases o with
  | ok t => exact congrArg Except.ok t.recast_same
  | error f => exact congrArg Except.error f.recast_same

theorem TokenStream.recast_same (s : TokenStream) : s.recast .same = s := by
  obtain ⟨pending, ending⟩ := s
  have outcomes : Outcome.recast .same = id := funext Outcome.recast_same
  have last : ending.recast .same = ending := by
    cases ending with
    | endOfText location => rfl
    | fault f => exact congrArg Ending.fault f.recast_same
  simp only [recast, outcomes, List.map_id, last]

theorem Reader.recast_same (r : Reader) : r.recast .same = r := by
  simp only [recast, Token.recast_same, TokenStream.recast_same]

/-- The script of programs with fewer than `n` tokens. -/
def Script.program (n : Nat) : Script Tree := (Story.program n).script

/-- So many open brackets that they count for `d` levels. -/
theorem Brackets.levels_replicate (d : Nat) :
    Brackets.levels ⟨List.replicate d .plain, .none⟩ = d := by
  rw [Brackets.levels, List.map_replicate, List.sum_replicate_nat, Bracket.levels, Nat.mul_one]

/-- The script of programs with fewer than `n` tokens, where the reader counts `d` levels already.
-/
def Script.programAt (d n : Nat) : Script Tree :=
  (Story.programAt (Brackets.levels_replicate d).symm n).script

theorem Script.program_keeps (n : Nat) :
    (Script.program n).Keeps (.within [] 0 n) fun _ => .within [] 0 n :=
  (Story.program n).keeps

theorem Script.program_steady (n : Nat) : (Script.program n).Steady (.within [] 0 n) :=
  (Story.program n).steady

namespace Parse

variable {limit : Option Nat} {n : Nat} {r : Reader} {φ : Recast}

theorem recastResult_same {α : Type} [Recastable α] (same : ∀ a : α, recast .same a = a)
    (x : EStateM.Result ParseFault Reader α) : recastResult .same x = x := by
  cases x with
  | ok a r => simp only [recastResult, Reader.recast_same, same]
  | error f r => simp only [recastResult, Reader.recast_same, ParseFault.recast_same]

theorem programBy_recastAt {stack d : Nat} (depth : r.depth = d) (room : r.work < n)
    (enough : n ≤ stack) : programBy (Grammar.reading limit stack) (r.recast φ) =
      recastResult φ ((Script.programAt d n).run limit r) := by
  have told := (Story.programAt (Brackets.levels_replicate d).symm n).tells
    ⟨limit, stack - n, φ⟩ r ⟨depth, room, nofun⟩
  rwa [Nat.sub_add_cancel enough] at told

theorem programBy_recast {stack : Nat} (top : r.depth = 0) (room : r.work < n)
    (enough : n ≤ stack) : programBy (Grammar.reading limit stack) (r.recast φ) =
      recastResult φ ((Script.program n).run limit r) :=
  programBy_recastAt top room enough

/-- How many rules may wait is decided where a program starts. -/
theorem program_eq (limits : Limits) (r : Reader) :
    program limits r = programBy
      (Grammar.reading limits.nesting (limits.stack.getD (r.ahead.length + 1))) r := by
  simp only [programBy, statements, bind_assoc]
  rfl

/-- The program of recast tokens is the recast program, and follows the script for any bound above
the tokens left. -/
theorem program_recastAt {d : Nat} (depth : r.depth = d) (room : r.work < n) :
    program ⟨limit, none⟩ (r.recast φ) =
      recastResult φ ((Script.programAt d n).run limit r) := by
  have tight : r.work < r.work + 1 := Nat.lt_succ_self _
  have own : r.work + 1 ≤ (r.recast φ).ahead.length + 1 :=
    Nat.succ_le_succ (r.work_recast φ ▸ Reader.work_le _)
  calc program ⟨limit, none⟩ (r.recast φ)
      = programBy (Grammar.reading limit ((r.recast φ).ahead.length + 1)) (r.recast φ) :=
        program_eq _ _
    _ = recastResult φ ((Script.programAt d (r.work + 1)).run limit r) :=
        programBy_recastAt depth tight own
    _ = programBy (Grammar.reading limit n) (r.recast φ) :=
        (programBy_recastAt depth tight room).symm
    _ = recastResult φ ((Script.programAt d n).run limit r) :=
        programBy_recastAt depth room (Nat.le_refl n)

theorem program_recast (top : r.depth = 0) (room : r.work < n) :
    program ⟨limit, none⟩ (r.recast φ) =
      recastResult φ ((Script.program n).run limit r) :=
  program_recastAt top room

theorem program_runAt {d : Nat} (depth : r.depth = d) (room : r.work < n) :
    program ⟨limit, none⟩ r = (Script.programAt d n).run limit r := by
  have run : program ⟨limit, none⟩ (r.recast .same) = _ := program_recastAt depth room
  rwa [Reader.recast_same, recastResult_same Tree.recast_same] at run

/-- A program of recast tokens is the recast program, wherever the reader stands. -/
theorem recast_program (φ : Recast) (r : Reader) :
    program ⟨limit, none⟩ (r.recast φ) = recastResult φ (program ⟨limit, none⟩ r) := by
  have room : r.work < r.work + 1 := Nat.lt_succ_self _
  rw [program_recastAt rfl room, program_runAt rfl room]

theorem program_run (top : r.depth = 0) (room : r.work < n) :
    program ⟨limit, none⟩ r = (Script.program n).run limit r :=
  program_runAt top room

/-- The result or the fault of a request. -/
def answer {α : Type} : EStateM.Result ParseFault Reader α → Except ParseFault α
  | .ok a _ => .ok a
  | .error f _ => .error f

end Parse

theorem Reader.program_answer (limits : Limits) (r : Reader) :
    (r.program limits).1 = Parse.answer (Parse.program limits r) := by
  unfold Reader.program
  cases Parse.program limits r <;> rfl

/-- The tree of what a stream gives. -/
def TokenStream.parse (limits : Limits) (s : TokenStream) : Except ParseFault Tree :=
  match Reader.start s with
  | .error f => .error (.reading f)
  | .ok r => (r.program limits).1

theorem parse_eq_stream (limits : Limits) (text file : String) :
    parse limits text file = (Cursor.ofText file text).stream.parse limits := rfl

namespace TokenStream

variable {limit : Option Nat} {s s' : TokenStream} {r : Reader} {n : Nat}

theorem parse_of_start_error {limits : Limits} {f : ReadFault}
    (failed : Reader.start s = .error f) : s.parse limits = .error (.reading f) := by
  simp only [parse, failed]

/-- The tree of a stream, or what is wrong with it, by the script of programs. -/
theorem parse_run (started : Reader.start s = .ok r) (room : r.work < n) :
    s.parse ⟨limit, none⟩ = Parse.answer ((Script.program n).run limit r) := by
  obtain ⟨_, top, _⟩ := Reader.start_standsAt started
  simp only [parse, started, Reader.program_answer, Parse.program_run top room]

/-- Of streams with the same first two outcomes both have a reader or none. -/
theorem start_of_agree (started : Reader.start s = .ok r)
    (agree : ∀ k < 2, s'.nth k = s.nth k) : Reader.start s' = .ok (r.onto (s'.drop 2)) := by
  obtain ⟨stands, top, outside⟩ := Reader.start_standsAt started
  rw [Reader.start_eq, agree 0 (by omega), agree 1 (by omega), stands.current, stands.next, ← top,
    ← outside]
  rfl

/-- A stream is parsed like another one that has the outcomes that a run on this one asks for. -/
theorem parse_of_agree (started : Reader.start s = .ok r) (room : r.work < n)
    (room' : (r.onto (s'.drop 2)).work < n)
    (agree : ∀ k < 2 + (Script.program n).reads limit r, s'.nth k = s.nth k) :
    s'.parse ⟨limit, none⟩ = s.parse ⟨limit, none⟩ := by
  obtain ⟨stands, _⟩ := Reader.start_standsAt started
  have started' := start_of_agree started fun k hk => agree k (by omega)
  rw [parse_run started room, parse_run started' room', Script.run_onto]
  · cases (Script.program n).run limit r <;> rfl
  · intro k hk
    rw [nth_drop, agree (2 + k) (by omega), stands.ahead, Nat.zero_add]

end TokenStream
end AresSyntax
