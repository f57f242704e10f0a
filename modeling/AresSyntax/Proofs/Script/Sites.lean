import Mathlib.Algebra.GroupWithZero.Nat
import AresSyntax.Proofs.Reader.Tokens
import AresSyntax.Proofs.Script.Basic

/-!
Where a script stands: which brackets the tokens taken so far leave open, the levels of nesting that
the reader counts, and how many tokens are left at most.

* `Brackets.after`, `Brackets.ofTokens`: the open brackets, from the tokens alone;
* `Reader.work`: the tokens still to be taken, without the end token;
* `Site`: what is known of a reader and of the brackets before it;
* `Script.Keeps`: from a place a script gets to the places it promises, and enters each level of
  nesting where the open brackets demand it.
-/
namespace AresSyntax

/-- An open bracket: the parenthesis of a parameter list, the brace of the body of a subroutine
without a name, or any other one. -/
inductive Bracket
  | parameters (named : Bool)
  | body
  | plain
  deriving DecidableEq, Repr

/-- How much of the heading of a subroutine stands last: nothing, its start up to the word `def` or
the name, or the parameters as well. -/
inductive Heading
  | none
  | start (named : Bool)
  | signature (named : Bool)
  deriving DecidableEq, Repr

namespace Heading

def behindIdent : Heading → Heading
  | start false => start true
  | _ => none

/-- What a parenthesis opens behind the heading. -/
def paren : Heading → Bracket
  | start named => .parameters named
  | _ => .plain

/-- What a brace opens behind the heading. -/
def brace : Heading → Bracket
  | signature false => .body
  | _ => .plain

end Heading

namespace Bracket

/-- The heading that stands last behind the closing bracket. -/
def behind : Bracket → Heading
  | parameters named => .signature named
  | _ => .none

/-- The levels that a bracket counts for. The body of a subroutine without a name is a block in an
expression and counts for both. -/
def levels : Bracket → Nat
  | parameters _ => 0
  | plain => 1
  | body => 2

end Bracket

theorem Heading.behind_brace (h : Heading) : h.brace.behind = .none := by
  cases h with
  | signature named => cases named <;> rfl
  | _ => rfl

/-- The open brackets, the innermost first, and the heading behind the last of the brackets. -/
structure Brackets where
  opened : List Bracket
  heading : Heading
  deriving DecidableEq, Repr

namespace Brackets

def close : List Bracket → Brackets
  | [] => ⟨[], .none⟩
  | b :: bs => ⟨bs, b.behind⟩

/-- The brackets that are open behind a token of kind `k`. Line ends stand anywhere. -/
def after (b : Brackets) (k : Kind) : Brackets :=
  match k with
  | .mark .newline | .endOfText => b
  | .keyword .defWord => ⟨b.opened, .start false⟩
  | .literal .ident => ⟨b.opened, b.heading.behindIdent⟩
  | .mark .openParen => ⟨b.heading.paren :: b.opened, .none⟩
  | .mark .openBrace => ⟨b.heading.brace :: b.opened, .none⟩
  | .mark .openBracket => ⟨.plain :: b.opened, .none⟩
  | .mark .closeParen | .mark .closeBracket | .mark .closeBrace => close b.opened
  | _ => ⟨b.opened, .none⟩

/-- The brackets that the tokens `ts` of a text leave open. -/
def ofTokens (ts : List Token) : Brackets := ts.foldl (fun b t => b.after t.kind) ⟨[], .none⟩

theorem ofTokens_append_singleton (ts : List Token) (t : Token) :
    ofTokens (ts ++ [t]) = (ofTokens ts).after t.kind := by
  rw [ofTokens, List.foldl_append]
  rfl

/-- The levels that the open brackets count for. -/
def levels (b : Brackets) : Nat := (b.opened.map Bracket.levels).sum

@[simp] theorem levels_cons (b : Bracket) (bs : List Bracket) (h : Heading) :
    levels ⟨b :: bs, h⟩ = b.levels + levels ⟨bs, .none⟩ := List.sum_cons

@[simp] theorem levels_heading (bs : List Bracket) (named : Bool) :
    levels ⟨bs, .signature named⟩ = levels ⟨bs, .none⟩ := rfl

end Brackets

/-- An expression counts for its level before it has a bracket. -/
def Level.extra : Level → Nat
  | block => 0
  | expression => 1

/-- Holds for the tokens but the end token. -/
def Outcome.isPresent : Outcome → Bool
  | .ok t => t.kind ≠ .endOfText
  | .error _ => false

/-- The number of tokens among the outcomes ahead, without the end token. -/
def Reader.work (r : Reader) : Nat := r.ahead.countP Outcome.isPresent

theorem Reader.work_le (r : Reader) : r.work ≤ r.ahead.length := List.countP_le_length

theorem Reader.work_pos {r : Reader} (more : r.current.kind ≠ .endOfText) : 0 < r.work := by
  simp [work, ahead, List.countP_cons, Outcome.isPresent, more]

/-- The rest of `n` tokens behind one of kind `k`. The end token is not counted. -/
def Kind.rest (n : Nat) : Kind → Nat
  | endOfText => n
  | _ => n - 1

theorem Kind.rest_le (n : Nat) (k : Kind) : k.rest n ≤ n := by
  cases k <;> simp only [rest] <;> omega

theorem Kind.rest_of_ne {k : Kind} (other : k ≠ .endOfText) (n : Nat) : k.rest n = n - 1 := by
  cases k with
  | endOfText => exact absurd rfl other
  | _ => rfl

theorem Kind.rest_le_rest {n m : Nat} (h : n ≤ m) (k : Kind) :
    k.rest n ≤ k.rest m := by
  cases k <;> simp only [Kind.rest] <;> omega

/-- What a stream gives behind all that is pending is no token to be taken. -/
theorem TokenStream.countP_pending {s s' : TokenStream} {o : Outcome} (h : s.next = (o, s')) :
    (o :: s'.pending).countP Outcome.isPresent = s.pending.countP Outcome.isPresent := by
  obtain ⟨pending, ending⟩ := s
  cases pending with
  | nil =>
    cases h
    cases ending <;> rfl
  | cons o pending =>
    cases h
    rfl

/-- Taking a token takes one from the work, if it is not the end token. -/
theorem Reader.work_of_advance {r r' : Reader} {t : Token} (h : Parse.advance r = .ok t r') :
    r'.work = t.kind.rest r.work := by
  obtain ⟨u, s, more, rfl, rfl⟩ := advance_eq_ok.1 h
  have later := TokenStream.countP_pending more
  have first : r.work = (if r.current.kind = .endOfText then 0 else 1) +
      (.ok r.next :: .ok u :: s.pending).countP Outcome.isPresent := by
    rw [List.countP_cons, later, ← List.countP_cons]
    by_cases last : r.current.kind = .endOfText <;>
      simp [work, ahead, List.countP_cons, Outcome.isPresent, last, Nat.add_comm]
  rw [first]
  cases kind : r.current.kind <;> simp [Kind.rest, work, ahead]

/-- What is known where a script stands: the open brackets, the levels counted, a bound above the
tokens left, and the kind of the current token if it was looked at. -/
structure Site where
  brackets : Brackets
  depth : Nat
  room : Nat
  current : Option Kind

namespace Site

/-- The place in the brackets `o`, behind the heading `h`. -/
def headed (o : List Bracket) (h : Heading) (depth room : Nat) : Site := ⟨⟨o, h⟩, depth, room, none⟩

/-- The place in the brackets `o`, behind no heading. -/
def within (o : List Bracket) (depth room : Nat) : Site := headed o .none depth room

def seeing (k : Kind) (w : Site) : Site := { w with current := some k }

/-- The place behind a token of kind `k`. -/
def taking (k : Kind) (w : Site) : Site :=
  ⟨w.brackets.after k, w.depth, k.rest w.room, none⟩

def deeper (w : Site) : Site := { w with depth := w.depth + 1 }

def shallower (w : Site) : Site := { w with depth := w.depth - 1 }

/-- The place with another bound above the tokens left, whatever is the current token. -/
def resized (w : Site) (room : Nat) : Site := { w with room, current := none }

/-- The current token may be of kind `k`. -/
def Sees (w : Site) (k : Kind) : Prop := ∀ j ∈ w.current, k = j

/-- What `w'` says is said by `w` as well. -/
structure Le (w w' : Site) : Prop where
  brackets : w.brackets = w'.brackets
  depth : w.depth = w'.depth
  room : w.room ≤ w'.room
  current : ∀ k ∈ w'.current, k ∈ w.current

theorem Le.refl (w : Site) : w.Le w := ⟨rfl, rfl, Nat.le_refl _, fun _ hk => hk⟩

theorem Le.sees {w w' : Site} (h : w.Le w') {k : Kind} (hk : w.Sees k) : w'.Sees k :=
  fun j hj => hk j (h.current j hj)

theorem Le.trans {w w' w'' : Site} (h : w.Le w') (h' : w'.Le w'') : w.Le w'' :=
  ⟨h.brackets.trans h'.brackets, h.depth.trans h'.depth, Nat.le_trans h.room h'.room,
    fun k hk => h.current k (h'.current k hk)⟩

/-- What is known of a reader at a place. -/
structure Holds (w : Site) (r : Reader) : Prop where
  depth : r.depth = w.depth
  room : r.work < w.room
  current : w.Sees r.current.kind

theorem Le.holds {w w' : Site} (h : w.Le w') {r : Reader} (hr : w.Holds r) : w'.Holds r :=
  ⟨hr.depth.trans h.depth, Nat.lt_of_lt_of_le hr.room h.room, h.sees hr.current⟩

theorem Le.seeing {w w' : Site} (h : w.Le w') (k : Kind) : (w.seeing k).Le (w'.seeing k) :=
  ⟨h.brackets, h.depth, h.room, fun _ hk => hk⟩

theorem Le.taking {w w' : Site} (h : w.Le w') (k : Kind) : (w.taking k).Le (w'.taking k) :=
  ⟨congrArg (Brackets.after · k) h.brackets, h.depth, Kind.rest_le_rest h.room k, nofun⟩

theorem Le.deeper {w w' : Site} (h : w.Le w') : w.deeper.Le w'.deeper :=
  ⟨h.brackets, congrArg (· + 1) h.depth, h.room, h.current⟩

theorem Le.shallower {w w' : Site} (h : w.Le w') : w.shallower.Le w'.shallower :=
  ⟨h.brackets, congrArg (· - 1) h.depth, h.room, h.current⟩

theorem seeing_le (w : Site) {k : Kind} (h : w.Sees k) : (w.seeing k).Le w :=
  ⟨rfl, rfl, Nat.le_refl _, fun j hj => congrArg some (h j hj)⟩

theorem resized_le (w : Site) {n m : Nat} (h : n ≤ m) : (w.resized n).Le (w.resized m) :=
  ⟨rfl, rfl, h, nofun⟩

theorem le_resized (w : Site) {n : Nat} (h : w.room ≤ n) : w.Le (w.resized n) :=
  ⟨rfl, rfl, h, nofun⟩

theorem seeing_le_within {k : Kind} {o : List Bracket} {depth n : Nat} :
    ((within o depth n).seeing k).Le (within o depth n) :=
  seeing_le _ nofun

theorem within_le {o : List Bracket} {depth n m : Nat} (h : n ≤ m) :
    (within o depth n).Le (within o depth m) :=
  ⟨rfl, rfl, h, nofun⟩

theorem Holds.seeing {w : Site} {r : Reader} (hr : w.Holds r) :
    (w.seeing r.current.kind).Holds r :=
  ⟨hr.depth, hr.room, fun _ hk => Option.some.inj hk⟩

theorem Holds.deeper {w : Site} {r : Reader} (hr : w.Holds r) : w.deeper.Holds r.deeper :=
  ⟨congrArg (· + 1) hr.depth, hr.room, hr.current⟩

theorem Holds.shallower {w : Site} {r : Reader} (hr : w.Holds r) :
    w.shallower.Holds r.shallower :=
  ⟨congrArg (· - 1) hr.depth, hr.room, hr.current⟩

theorem Holds.marked {w : Site} {r : Reader} (hr : w.Holds r) (inside : Bool) :
    w.Holds (r.marked inside) :=
  ⟨hr.depth, hr.room, hr.current⟩

theorem Holds.advance {w : Site} {r r' : Reader} {t : Token} (hr : w.Holds r)
    (h : Parse.advance r = .ok t r') : (w.taking t.kind).Holds r' := by
  refine ⟨?_, ?_, nofun⟩
  · obtain ⟨u, s, _, _, rfl⟩ := Reader.advance_eq_ok.1 h
    exact hr.depth
  · have room := hr.room
    rw [Reader.work_of_advance h]
    cases kind : t.kind with
    | endOfText => exact room
    | _ =>
      have present : 0 < r.work := by
        obtain ⟨u, s, _, rfl, _⟩ := Reader.advance_eq_ok.1 h
        exact Reader.work_pos (by simp [kind])
      simp only [taking, Kind.rest]
      omega

end Site

namespace Script

variable {α β : Type}

/-- From the place `w` the script gets to `post`, whatever tokens it is shown, and enters a level of
nesting only where the open brackets, with the levels that they count for, demand the depth it gets
by that. It refuses no token for the depth by itself. -/
def Keeps : Script α → Site → (α → Site) → Prop
  | done a, w, post => w.Le (post a)
  | refuse e, _, _ => e ≠ .nestedTooDeeply
  | look next, w, post => ∀ t u inside, w.Sees t.kind →
    (next t u inside).Keeps (w.seeing t.kind) post
  | take next, w, post => ∀ t, w.Sees t.kind → (next t).Keeps (w.taking t.kind) post
  | enter level next, w, post =>
    w.depth + 1 = w.brackets.levels + level.extra ∧ next.Keeps w.deeper post
  | leave next, w, post => next.Keeps w.shallower post
  | mark _ next, w, post => next.Keeps w post

variable {s : Script α} {w w' : Site} {post post' : α → Site}

theorem Keeps.relax (h : s.Keeps w' post') (before : w.Le w')
    (behind : ∀ a, (post' a).Le (post a)) : s.Keeps w post := by
  induction s generalizing w w' with
  | done a => exact (before.trans h).trans (behind a)
  | refuse e => exact h
  | look next ih =>
    exact fun t u inside sees =>
      ih t u inside (h t u inside (before.sees sees)) (before.seeing _)
  | take next ih => exact fun t sees => ih t (h t (before.sees sees)) (before.taking _)
  | enter level next ih =>
    refine ⟨?_, ih h.2 before.deeper⟩
    rw [before.depth, before.brackets]
    exact h.1
  | leave next ih => exact ih h before.shallower
  | mark inside next ih => exact ih h before

theorem Keeps.bind {mid : α → Site} {f : α → Script β} {last : β → Site} (h : s.Keeps w mid)
    (next : ∀ a, (f a).Keeps (mid a) last) : (s.bind f).Keeps w last := by
  induction s generalizing w with
  | done a => exact (next a).relax h fun _ => .refl _
  | refuse e => exact h
  | look _ ih => exact fun t u inside sees => ih t u inside (h t u inside sees)
  | take _ ih => exact fun t sees => ih t (h t sees)
  | enter level _ ih => exact ⟨h.1, ih h.2⟩
  | leave _ ih => exact ih h
  | mark inside _ ih => exact ih h

/-- A run that gives a result gets to the place that was promised. -/
theorem Keeps.run {limit : Option Nat} {r r' : Reader} {a : α} (h : s.Keeps w post)
    (hr : w.Holds r) (run : s.run limit r = .ok a r') : (post a).Holds r' := by
  induction s generalizing w r with
  | done b =>
    cases run
    exact h.holds hr
  | refuse e => cases run
  | look next ih =>
    exact ih _ _ _ (h _ _ _ hr.current) hr.seeing run
  | take next ih =>
    obtain ⟨t, s, taken, run⟩ := Parse.bind_eq_ok.1 run
    obtain ⟨_, _, _, same, _⟩ := Reader.advance_eq_ok.1 taken
    exact ih t (h t (same ▸ hr.current)) (hr.advance taken) run
  | enter level next ih =>
    simp only [Script.run, Parse.modify_bind, Parse.get_bind, Parse.ite_eq_ok, Parse.refuse_eq_ok,
      and_false, false_or] at run
    exact ih h.2 hr.deeper run.2
  | leave next ih => exact ih h hr.shallower run
  | mark inside next ih => exact ih h (hr.marked inside) run

end Script
end AresSyntax
