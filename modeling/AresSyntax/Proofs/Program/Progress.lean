import AresSyntax.Proofs.Reader.Gaining
import AresSyntax.Proofs.Script.Programs
import AresSyntax.Proofs.Soundness.Blocks

/-!
Reading a program comes to an end, on any tokens and from any reader.

* `Parse.Progresses`: what a rule says of the tokens left, where it gives a result and where not;
* `Parse.Ends`, `Parse.EndsFrom`: repetitions that need no bound;
* `Grammar.RulesProgress`, `Grammar.LoopsEnd`: every rule and every repetition of the grammar;
* `Grammar.readingOn`: the rules above a grammar that is asked where no more rules may wait;
* `Grammar.readingOn_congr`, `Parse.programBy_readingOn`: with room for a rule for each token, this
  grammar is never asked;
* `parsing_progresses`: rules gain tokens, repetitions end, and so do programs.
-/
namespace AresSyntax

namespace Parse

variable {α : Type}

/-- Holds for requests that leave no more tokens than they found, also where they fail on a text. -/
structure Lessens (p : Parse α) : Prop where
  result : ∀ r a r', p r = .ok a r' → r'.work ≤ r.work
  fault : ∀ r f r', p r = .error f r' → r.Regular → r'.work ≤ r.work

/-- Holds for requests that take a token of a construct before they give a result, and so leave
fewer tokens than they found. -/
structure Progresses (p : Parse α) : Prop extends p.Lessens where
  gained : ∀ r a r', p r = .ok a r' → r.Gained r'
  fewer : ∀ r a r', p r = .ok a r' → r'.work < r.work

theorem Restores.lessens {p : Parse α} (h : p.Restores) : p.Lessens where
  result _ _ _ ran := (h.result ran).1.work_le
  fault _ _ _ ran hr := (h.fault ran).1.work_le hr

theorem Gains.progresses {p : Parse α} (h : p.Gains) (restores : p.Restores) : p.Progresses where
  toLessens := restores.lessens
  gained _ _ _ ran := h.gained ran
  fewer _ _ _ ran := (h.gained ran).work_lt

/-! ## Repetition -/

/-- Holds for steps of which every result leaves fewer tokens. A collection of such results goes on
until there is none, and may as well be bounded by the tokens left. -/
structure Ends (step : Parse (Option α)) : Prop where
  fewer : ∀ r a r', step r = .ok (some a) r' → r'.work < r.work
  unbounded : ∀ r, collect step r = match step r with
    | .ok none r' => .ok [] r'
    | .ok (some a) r' => (do return a :: (← collect step)) r'
    | .error e r' => .error e r'
  bounded : ∀ r os, r.work ≤ os.length → collectWithin step os r = collect step r

/-- Holds for steps that go on from their own results, of which every one leaves fewer tokens. -/
structure EndsFrom (step : α → Parse (Option α)) : Prop where
  fewer : ∀ a r b r', step a r = .ok (some b) r' → r'.work < r.work
  unbounded : ∀ a r, iterate step a r = match step a r with
    | .ok none r' => .ok a r'
    | .ok (some b) r' => iterate step b r'
    | .error e r' => .error e r'
  bounded : ∀ a r os, r.work ≤ os.length → iterateWithin step os a r = iterate step a r

theorem GainsFor.lowering {step : Parse (Option α)} (h : step.GainsFor fun o => o.isSome) :
    step.Lowering (fun _ => True) Reader.work :=
  fun r a r' _ ran => ⟨trivial, (h r (some a) r' ran rfl).work_lt⟩

theorem Lowering.ends {step : Parse (Option α)}
    (h : step.Lowering (fun _ => True) Reader.work) : step.Ends where
  fewer r a r' ran := (h r a r' trivial ran).2
  unbounded _ := collect_of_lowering (fun r _ => r.work_le) h trivial
  bounded r _ room := collectWithin_congr_of_lowering h trivial room r.work_le

theorem Lowering.endsFrom {step : α → Parse (Option α)}
    (h : ∀ a, (step a).Lowering (fun _ => True) Reader.work) : EndsFrom step where
  fewer a r b r' ran := (h a r b r' trivial ran).2
  unbounded _ _ := iterate_of_lowering (fun r _ => r.work_le) h trivial
  bounded _ r _ room := iterateWithin_congr_of_lowering h trivial room r.work_le

/-- A line end is a token as well. -/
theorem newline_lowering :
    Lowering (fun _ => True) Reader.work
      (do return if ← accept (.mark .newline) then some () else none) := by
  intro r a r' _ ran
  obtain ⟨b, s, taken, given⟩ := bind_eq_ok.1 ran
  obtain ⟨same, rfl⟩ := pure_eq_ok.1 given
  obtain ⟨line, rfl, t, advanced⟩ | ⟨_, rfl, _⟩ := accept_eq_ok.1 taken
  · obtain ⟨rfl, -⟩ := Reader.shift_of_advance advanced
    exact ⟨trivial, Reader.work_lt_of_advance advanced (by simp [line])⟩
  · cases same

end Parse

namespace Grammar
open Parse

variable {limit : Option Nat} {again : Grammar}

theorem programStatement?_gains (h : again.Gaining) :
    (programStatement? again).GainsFor fun o => o.isSome :=
  .behind (.check _) fun _ => .ite .none
    (.before (h.gains .statement) fun _ =>
      .bind (separator_restores (.bind (.expect _ _) fun _ => .pure _)) fun _ => .pure _)

theorem nextItem?_gains {α : Type} {item : Parse α} (h : item.Gains) :
    (nextItem? item).GainsFor fun o => o.isSome :=
  .behind (.check _) fun _ =>
    .ite (.behind .advanceLines fun _ => .before h fun _ => .pure _) .none

/-- Every rule of the grammar takes a token of its construct. -/
structure RulesProgress (limit : Option Nat) (again : Grammar) : Prop where
  rules : ∀ g, (rule limit again g).Progresses
  climbs : ∀ levels least, (climb (operand limit again) levels least).Progresses
  atoms : (atom limit again).Progresses
  blocks : (block limit again).Progresses

theorem Gaining.rulesProgress (h : again.Gaining) : RulesProgress limit again where
  rules g := ((rule_gaining h).gains g).progresses ((rule_gaining h).restoring g)
  climbs levels least :=
    have operands : (operand limit again).Restores := operand_restores h.restoring
    (climb_gains operands (operand_gains h) levels least).progresses
      (climb_restores operands levels least)
  atoms := (atom_gains h).progresses (atom_restores h.restoring)
  blocks := (block_gains h).progresses (block_restores h.restoring)

/-- Every repetition of the grammar ends, with tokens left or not. What stands in front of a
repetition of elements, expressions or parameters is one of them as well. -/
structure LoopsEnd (limit : Option Nat) (again : Grammar) : Prop where
  newlines : EndsFrom fun _ : Unit => do
    return if ← accept (.mark .newline) then some () else none
  program : (programStatement? again).Ends
  block : (blockStatement? again).Ends
  hash : (nextHashElement? again).Ends
  hashStart : ∀ r a r', hashElement? again r = .ok (some a) r' → r'.work < r.work
  expressions : (nextItem? (again .expression)).Ends
  expressionsStart : (again .expression).Progresses
  parameters : (nextItem? (identifier .parameter)).Ends
  parametersStart : (identifier .parameter).Progresses
  clauses : (elifClause? limit again).Ends
  trailers : EndsFrom (trailer? again)
  operators : ∀ levels least, EndsFrom (fold? least (climb (operand limit again) levels))

theorem Gaining.loopsEnd (h : again.Gaining) : LoopsEnd limit again where
  newlines := Lowering.endsFrom fun _ => newline_lowering
  program := (programStatement?_gains h).lowering.ends
  block := (blockStatement?_gains h).lowering.ends
  hash := (nextHashElement?_gains h).lowering.ends
  hashStart r a r' ran := (hashElement?_gains h r (some a) r' ran rfl).work_lt
  expressions := (nextItem?_gains (h.gains .expression)).lowering.ends
  expressionsStart := (h.gains .expression).progresses (h.restoring .expression)
  parameters := (nextItem?_gains (identifier_gains _)).lowering.ends
  parametersStart := (identifier_gains _).progresses (identifier_restores _)
  clauses := (elifClause?_gains h).lowering.ends
  trailers := Lowering.endsFrom fun base => (trailer?_gains h base).lowering
  operators levels _ :=
    have operands : (operand limit again).Restores := operand_restores h.restoring
    have rights := climb_gains operands (operand_gains h) levels
    Lowering.endsFrom fun left => (fold?_gains rights left).lowering

/-! ## Rules that wait -/

/-- Reads any goal, where at most `stack` rules wait for another one. If one more had to wait, then
`bottom` would be asked in its place. -/
def readingOn (limit : Option Nat) (bottom : Grammar) : (stack : Nat) → Grammar
  | 0 => bottom
  | stack + 1 => rule limit (readingOn limit bottom stack)

theorem reading_eq_readingOn (limit : Option Nat) (stack : Nat) :
    reading limit stack = readingOn limit (fun _ => refuse .nestedTooDeeply) stack := by
  induction stack with
  | zero => rfl
  | succ stack ih => rw [reading, readingOn, ih]

end Grammar

/-- Whatever the bottom is, it has no part in the scripts of the rules above it. -/
def Story.readingOn (bottom : View → Grammar) (spare : View → Nat) :
    ∀ n, Stories n fun v => Grammar.readingOn v.limit (bottom v) (spare v + n)
  | 0 => unread
  | n + 1 => rule (readingOn bottom spare n)

/-- A request does the same in views that show the same tokens under the same limit. -/
theorem Story.tells_same {α : Type} [Recastable α] {w : Site} {p : View → Parse α}
    {post : α → Site} (s : Story w p post) {r : Reader} (hr : w.Holds r) (limit : Option Nat)
    (i j : Nat) : p ⟨limit, i, .same⟩ r = p ⟨limit, j, .same⟩ r := by
  have told := s.tells ⟨limit, i, .same⟩ r hr
  have told' := s.tells ⟨limit, j, .same⟩ r hr
  rw [Reader.recast_same] at told told'
  exact told.trans told'.symm

/-- The rules above two bottoms as two views of one grammar, told apart by the room to spare. -/
def Story.readingOnEither (bottom bottom' : Grammar) (stack stack' n : Nat) :
    Stories n fun v => Grammar.readingOn v.limit (if v.spare = 0 then bottom else bottom')
      ((if v.spare = 0 then stack - n else stack' - n) + n) :=
  Story.readingOn (fun v => if v.spare = 0 then bottom else bottom')
    (fun v => if v.spare = 0 then stack - n else stack' - n) n

section
variable {limit : Option Nat} {r : Reader} {bottom bottom' : Grammar} {stack stack' : Nat}

theorem Reader.stands_within (r : Reader) (o : List Bracket) :
    (Site.within o r.depth (r.work + 1)).Holds r :=
  ⟨rfl, Nat.lt_succ_self _, nofun⟩

/-- With room for a rule for each token left, the bottom is never asked. The value of an assignment
and the operand of a prefix operator are read inside an expression. -/
theorem Grammar.readingOn_congr {g : Goal} (inside : g.extra ≤ r.depth) (room : r.work < stack)
    (room' : r.work < stack') :
    readingOn limit bottom stack g r = readingOn limit bottom' stack' g r := by
  have counted : r.depth =
      Brackets.levels ⟨List.replicate (r.depth - g.extra) .plain, .none⟩ + g.extra := by
    rw [Brackets.levels_replicate, Nat.sub_add_cancel inside]
  have rules := Story.readingOnEither bottom bottom' stack stack' (r.work + 1)
  have same := (rules g _ r.depth _ (Nat.le_refl _) counted).tells_same (r.stands_within _) limit
    0 1
  simpa [Nat.sub_add_cancel room, Nat.sub_add_cancel room'] using same

theorem Parse.programBy_readingOn (room : r.work < stack) (room' : r.work < stack') :
    programBy (Grammar.readingOn limit bottom stack) r =
      programBy (Grammar.readingOn limit bottom' stack') r := by
  have counted := Brackets.levels_replicate r.depth
  have rules := Story.readingOnEither bottom bottom' stack stack' (r.work + 1)
  have same := (Story.programBy rules counted.symm).tells_same (r.stands_within _) limit 0 1
  simpa [Nat.sub_add_cancel room, Nat.sub_add_cancel room'] using same

end

/-- Reading a program gets on from every reader, under any limit and with any room for rules that
wait. A rule that gives a result has taken a token of its construct, every repetition ends because
its steps do so too, and nothing leaves more tokens than it found. With room for one rule more than
tokens are left, no rule is ever asked for beyond it. -/
theorem parsing_progresses (limit : Option Nat) (stack : Nat) :
    Grammar.RulesProgress limit (Grammar.reading limit stack) ∧
    Grammar.LoopsEnd limit (Grammar.reading limit stack) ∧
    (∀ limits, (Parse.program limits).Lessens) ∧
    ∀ (bottom : Grammar) (r : Reader), r.work < stack →
      (∀ g : Goal, g.extra ≤ r.depth →
        Grammar.readingOn limit bottom stack g r = Grammar.reading limit stack g r) ∧
      Parse.programBy (Grammar.readingOn limit bottom stack) r =
        Parse.program ⟨limit, none⟩ r := by
  have gaining := Grammar.reading_gaining limit stack
  refine ⟨gaining.rulesProgress, gaining.loopsEnd, ?_, ?_⟩
  · intro limits
    exact (Parse.program_restores limits).lessens
  · intro bottom r room
    constructor
    · intro g inside
      rw [Grammar.reading_eq_readingOn]
      exact Grammar.readingOn_congr inside room room
    · have own : r.work < r.ahead.length + 1 := Nat.lt_succ_of_le r.work_le
      rw [Parse.program_eq, Grammar.reading_eq_readingOn]
      exact Parse.programBy_readingOn room own

/-- The name in the first line is gained, and the program fails at the string that is left open. -/
theorem parsing_progresses_fault : ∃ r : Reader,
    Reader.start (Cursor.ofText "f.ares" "x\n(y '").stream = .ok r ∧ r.work = 4 ∧
      (∃ t r', Grammar.rule none (Grammar.reading none 5) .statement r = .ok t r' ∧
        r.Gained r') ∧
      (∃ f r', Parse.program ⟨none, none⟩ r = .error f r' ∧ r'.work ≤ 4) ∧
      ∀ bottom, Parse.programBy (Grammar.readingOn none bottom 5) r =
        Parse.program ⟨none, none⟩ r := by
  have shown : (Reader.start (Cursor.ofText "f.ares" "x\n(y '").stream).toOption.map (fun r =>
      (r.work, (Parse.answer (Grammar.rule none (Grammar.reading none 5) .statement r)).isOk,
        (Parse.answer (Parse.program ⟨none, none⟩ r)).isOk)) = some (4, true, false) := by
    decide +kernel
  cases started : Reader.start (Cursor.ofText "f.ares" "x\n(y '").stream with
  | error f =>
    rw [started] at shown
    cases shown
  | ok r =>
    rw [started] at shown
    obtain ⟨work, others⟩ := Prod.mk.inj (Option.some.inj shown)
    obtain ⟨statement, program⟩ := Prod.mk.inj others
    obtain ⟨progress, -, lessens, room⟩ := parsing_progresses none 5
    have regular : r.Regular :=
      (Reader.start_spec (Cursor.streamWithin_endsLast _ _) started).1.regular
    refine ⟨r, rfl, work, ?_, ?_, fun bottom => (room bottom r (by omega)).2⟩
    · cases ran : Grammar.rule none (Grammar.reading none 5) .statement r with
      | ok t r' => exact ⟨t, r', rfl, (progress.rules .statement).gained r t r' ran⟩
      | error f r' =>
        rw [ran] at statement
        cases statement
    · cases ran : Parse.program ⟨none, none⟩ r with
      | ok t r' =>
        rw [ran] at program
        cases program
      | error f r' => exact ⟨f, r', rfl, work ▸ (lessens _).fault r f r' ran regular⟩

end AresSyntax
