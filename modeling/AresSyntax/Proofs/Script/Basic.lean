import AresSyntax.Proofs.Reader.Results

/-!
What a request does to a reader, step by step. A script is the tree of the steps: which step comes
next depends on the tokens that were seen, and on nothing else.

* `Script`, `Script.bind`: the steps, and two scripts one after the other;
* `Script.run`: the steps done to a reader, under a limit on the levels of nesting;
* `Script.trail`: the points that the steps pass through;
* `Script.reads`: how often the steps ask the stream for an outcome.
-/
namespace AresSyntax

/-- The two constructs that are a level of nesting. -/
inductive Level
  | block | expression
  deriving DecidableEq, Repr

/-- The steps of a request that ends with an `α`. Looking shows the two tokens that were read and
whether the place is in a subroutine. Entering and leaving count the levels of nesting. -/
inductive Script (α : Type) : Type
  | done (a : α)
  | refuse (e : GrammarError)
  | look (next : Token → Token → Bool → Script α)
  | take (next : Token → Script α)
  | enter (level : Level) (next : Script α)
  | leave (next : Script α)
  | mark (inside : Bool) (next : Script α)

namespace Reader

def deeper (r : Reader) : Reader := { r with depth := r.depth + 1 }

def shallower (r : Reader) : Reader := { r with depth := r.depth - 1 }

def marked (inside : Bool) (r : Reader) : Reader := { r with inSubroutine := inside }

end Reader

/-- A point of a run: the tokens taken on the way there, the reader, and the level that was entered
by the step to it, if it was such a step. -/
structure Point where
  taken : List Token
  reader : Reader
  entered : Option Level

namespace Script

variable {α β : Type}

def bind : Script α → (α → Script β) → Script β
  | done a, f => f a
  | refuse e, _ => refuse e
  | look next, f => look fun t u inside => (next t u inside).bind f
  | take next, f => take fun t => (next t).bind f
  | enter level next, f => enter level (next.bind f)
  | leave next, f => leave (next.bind f)
  | mark inside next, f => mark inside (next.bind f)

/-- The steps of a script as a request. A level beyond the limit is refused. -/
def run (limit : Option Nat) : Script α → Parse α
  | done a => pure a
  | refuse e => Parse.refuse e
  | look next => do
    let r ← get
    (next r.current r.next r.inSubroutine).run limit
  | take next => do
    let t ← Parse.advance
    (next t).run limit
  | enter _ next => do
    modify Reader.deeper
    if limit.any (· < (← get).depth) then Parse.refuse .nestedTooDeeply else next.run limit
  | leave next => do
    modify Reader.shallower
    next.run limit
  | mark inside next => do
    modify (Reader.marked inside)
    next.run limit

/-- The points that a run passes through, behind the tokens `taken`. Where no token can be read
the run ends without a further point, and a level that is refused is a point still. -/
def trail (limit : Option Nat) : Script α → List Token → Reader → List Point
  | done _, taken, r => [⟨taken, r, none⟩]
  | refuse _, taken, r => [⟨taken, r, none⟩]
  | look next, taken, r => (next r.current r.next r.inSubroutine).trail limit taken r
  | take next, taken, r =>
    ⟨taken, r, none⟩ ::
      match Parse.advance r with
      | .ok t r => (next t).trail limit (taken ++ [t]) r
      | .error _ _ => []
  | enter level next, taken, r =>
    ⟨taken, r, none⟩ :: ⟨taken, r.deeper, some level⟩ ::
      if limit.any (· < r.depth + 1) then [] else next.trail limit taken r.deeper
  | leave next, taken, r => ⟨taken, r, none⟩ :: next.trail limit taken r.shallower
  | mark inside next, taken, r => ⟨taken, r, none⟩ :: next.trail limit taken (r.marked inside)

/-- How often a run asks the stream for an outcome. -/
def reads (limit : Option Nat) : Script α → Reader → Nat
  | done _, _ => 0
  | refuse _, _ => 0
  | look next, r => (next r.current r.next r.inSubroutine).reads limit r
  | take next, r =>
    match Parse.advance r with
    | .ok t r => (next t).reads limit r + 1
    | .error _ _ => 1
  | enter _ next, r =>
    if limit.any (· < r.depth + 1) then 0 else next.reads limit r.deeper
  | leave next, r => next.reads limit r.shallower
  | mark inside next, r => next.reads limit (r.marked inside)

variable {limit : Option Nat}

theorem run_take {next : Token → Script α} {t : Token} {r r' : Reader}
    (taken : Parse.advance r = .ok t r') :
    (take next).run limit r = (next t).run limit r' := Parse.bind_ok taken

theorem run_take_error {next : Token → Script α} {f : ParseFault} {r r' : Reader}
    (failed : Parse.advance r = .error f r') : (take next).run limit r = .error f r' :=
  Parse.bind_error failed

theorem run_enter {level : Level} {next : Script α} {r : Reader}
    (within : limit.any (· < r.depth + 1) = false) :
    (enter level next).run limit r = next.run limit r.deeper := by
  simp only [run, Parse.modify_bind, Parse.get_bind, Reader.deeper, within, Bool.false_eq_true,
    if_false]

theorem run_enter_refused {level : Level} {next : Script α} {r : Reader}
    (beyond : limit.any (· < r.depth + 1) = true) :
    (enter level next).run limit r = .error (.grammar .nestedTooDeeply r.current) r.deeper := by
  simp only [run, Parse.modify_bind, Parse.get_bind, Reader.deeper, beyond, if_true]
  rfl

/-- Scripts one after the other are requests one after the other. -/
theorem run_bind (s : Script α) (f : α → Script β) :
    (s.bind f).run limit = s.run limit >>= fun a => (f a).run limit := by
  induction s with
  | done a => simp only [bind, run, pure_bind]
  | refuse e => rfl
  | look next ih => simp only [bind, run, ih, bind_assoc]
  | take next ih => simp only [bind, run, ih, bind_assoc]
  | enter level next ih =>
    simp only [bind, run, ih, bind_assoc]
    congr; funext _; congr; funext r
    by_cases refused : limit.any (· < r.depth)
    · simp only [if_pos refused]
      rfl
    · simp only [if_neg refused]
  | leave next ih => simp only [bind, run, ih, bind_assoc]
  | mark inside next ih => simp only [bind, run, ih, bind_assoc]

end Script
end AresSyntax
