import AresSyntax.Proofs.Script.Steady
import AresSyntax.Proofs.Script.Recasting

/-!
Requests and their scripts. A story tells which script a request follows from a place on. The
script is one for all views of the request: under any limit, with more or less room for rules that
wait, and whatever are the texts, values and locations of the tokens.

* `View`, `Story`: the ways to see a request, and a request with its script;
* `Story.bind`, `Story.check`, `Story.iterate`, `Story.collect`: requests built from others;
* `Story.expect`, `Story.skipNewlines`, `Story.commaSeparated`, `Story.nested`: the requests of a
  reader.
-/
namespace AresSyntax

/-- A way to see a request: the limit on levels of nesting, how many more rules than needed may
wait, and what the tokens are recast to. -/
structure View where
  limit : Option Nat
  spare : Nat
  recasting : Recast

/-- The request `p` follows a script from the place `w` on, and gets to the places `post`. What the
lookahead tells apart takes the current token. -/
structure Story {α : Type} [Recastable α] (w : Site) (p : View → Parse α) (post : α → Site) where
  script : Script α
  tells : ∀ (v : View) (r : Reader), w.Holds r →
    p v (r.recast v.recasting) = Parse.recastResult v.recasting (script.run v.limit r)
  keeps : script.Keeps w post
  steady : script.Steady w

namespace GrammarError

theorem expected_ne (e : Expectation) : expected e ≠ nestedTooDeeply := by simp

theorem assignmentTarget_ne : assignmentTarget ≠ nestedTooDeeply := by simp

theorem returnOutside_ne : returnOutside ≠ nestedTooDeeply := by simp

theorem expectedExpression_ne : expectedExpression ≠ nestedTooDeeply := by simp

end GrammarError

namespace Parse

variable {α β : Type} [Recastable α] [Recastable β] {φ : Recast} {r : Reader}

/-- If both parts of a request are the recast parts of another one, then so is the whole. -/
theorem bind_recast {p q : Parse α} {f g : α → Parse β}
    (first : p (r.recast φ) = recastResult φ (q r))
    (next : ∀ a r', q r = .ok a r' → f (recast φ a) (r'.recast φ) = recastResult φ (g a r')) :
    (p >>= f) (r.recast φ) = recastResult φ ((q >>= g) r) := by
  cases run : q r with
  | ok a r' =>
    rw [run] at first
    rw [bind_ok first, bind_ok run]
    exact next a r' run
  | error e r' =>
    rw [run] at first
    rw [bind_error first, bind_error run]
    rfl

end Parse

namespace Story

variable {α β : Type} [Recastable α] [Recastable β] {w w' : Site} {post post' : α → Site}
  {last : β → Site}

def done (a : α) {f : View → α} (same : ∀ v, recast v.recasting a = f v := by simp)
    (h : w.Le (post a) := by exact .refl _) : Story w (fun v => pure (f v)) post where
  script := .done a
  tells v r _ := congrArg (fun b => EStateM.Result.ok b (r.recast v.recasting)) (same v).symm
  keeps := h
  steady := trivial

def refuse {e : GrammarError} (h : e ≠ .nestedTooDeeply) :
    Story w (fun _ => Parse.refuse e) post where
  script := .refuse e
  tells _ _ _ := rfl
  keeps := h
  steady := trivial

/-- Nothing follows a refusal. -/
def refuseFirst {e : GrammarError} {f : View → α → Parse β} (h : e ≠ .nestedTooDeeply) :
    Story w (fun v => Parse.refuse e >>= f v) last where
  script := .refuse e
  tells _ _ _ := Parse.bind_error rfl
  keeps := h
  steady := trivial

def relax {p : View → Parse α} (s : Story w' p post') (before : w.Le w')
    (behind : ∀ a, (post' a).Le (post a)) : Story w p post where
  script := s.script
  tells v r hr := s.tells v r (before.holds hr)
  keeps := s.keeps.relax before behind
  steady := s.steady.relax before

def bind {p : View → Parse α} {f : View → α → Parse β} (first : Story w p post)
    (next : ∀ a, Story (post a) (fun v => f v (recast v.recasting a)) last) :
    Story w (fun v => p v >>= f v) last where
  script := first.script.bind fun a => (next a).script
  tells v r hr := by
    rw [Script.run_bind]
    exact Parse.bind_recast (first.tells v r hr) fun a r' run =>
      (next a).tells v r' (first.keeps.run hr run)
  keeps := first.keeps.bind fun a => (next a).keeps
  steady := first.steady.bind first.keeps fun a => (next a).steady

def look {f : View → Token → Parse β}
    (next : ∀ t, Story (w.seeing t.kind) (fun v => f v (recast v.recasting t)) last) :
    Story w (fun v => Parse.current >>= f v) last where
  script := .look fun t _ _ => (next t).script
  tells v r hr := (next r.current).tells v r hr.seeing
  keeps := fun t _ _ _ => (next t).keeps
  steady := fun t _ _ _ => ⟨(next t).steady, fun _ => .inl rfl⟩

/-- A choice that is the same in all views. -/
def ite {c : View → Prop} [∀ v, Decidable (c v)] (chosen : Prop) [Decidable chosen]
    {p q : View → Parse β} (yes : chosen → Story w p last) (no : Story w q last)
    (same : ∀ v, c v ↔ chosen := by simp) : Story w (fun v => if c v then p v else q v) last :=
  if h : chosen then
    { yes h with
      tells := fun v r hr => (congrFun (if_pos ((same v).2 h)) _).trans ((yes h).tells v r hr) }
  else
    { no with
      tells := fun v r hr => (congrFun (if_neg (mt (same v).1 h)) _).trans (no.tells v r hr) }

/-- A choice by the kind of the current token. -/
def check {k : Kind} {p q : View → Parse β} (yes : Story (w.seeing k) p last)
    (no : Story w q last) :
    Story w (fun v => Parse.check k >>= fun b => if b then p v else q v) last where
  script := .look fun t _ _ => if t.kind = k then yes.script else no.script
  tells v r hr := by
    by_cases kind : r.current.kind = k
    · have told := yes.tells v r (kind ▸ hr.seeing)
      simpa [Script.run, Reader.recast, Token.recast, kind] using told
    · have told := no.tells v r hr
      simpa [Script.run, Reader.recast, Token.recast, kind] using told
  keeps := by
    intro t _ _ sees
    by_cases kind : t.kind = k
    · simp only [kind, if_true]
      exact yes.keeps
    · simp only [kind, if_false]
      exact no.keeps.relax (w.seeing_le sees) fun _ => .refl _
  steady := by
    intro t _ _ sees
    refine ⟨?_, fun _ => .inl rfl⟩
    by_cases kind : t.kind = k
    · simp only [kind, if_true]
      exact yes.steady
    · simp only [kind, if_false]
      exact no.steady.relax (w.seeing_le sees)

/-- A choice by the kind of the current token, with the same behind both branches. -/
def checkThen {k : Kind} {mid : α → Site} {p q : View → Parse α} {f : View → α → Parse β}
    (yes : Story (w.seeing k) p mid) (no : Story w q mid)
    (next : ∀ a, Story (mid a) (fun v => f v (recast v.recasting a)) last) :
    Story w (fun v => Parse.check k >>= fun b => if b then p v >>= f v else q v >>= f v) last :=
  .check (.bind yes next) (.bind no next)

/-- A choice by the kind of the token behind the current one, where both branches take the current
one. -/
def peek {k j : Kind} {p q : View → Parse β} (known : w.current = some j) (yes : Story w p last)
    (no : Story w q last) (goes : yes.script.Goes j) (goes' : no.script.Goes j) :
    Story w (fun v => (get : Parse Reader) >>= fun r => if r.next.kind = k then p v else q v)
      last where
  script := .look fun _ u _ => if u.kind = k then yes.script else no.script
  tells v r hr := by
    by_cases kind : r.next.kind = k
    · have told := yes.tells v r hr
      simpa [Script.run, Reader.recast, Token.recast, kind] using told
    · have told := no.tells v r hr
      simpa [Script.run, Reader.recast, Token.recast, kind] using told
  keeps := by
    intro _ u _ sees
    by_cases kind : u.kind = k
    · simp only [kind, if_true]
      exact yes.keeps.relax (w.seeing_le sees) fun _ => .refl _
    · simp only [kind, if_false]
      exact no.keeps.relax (w.seeing_le sees) fun _ => .refl _
  steady := by
    intro t u _ sees
    obtain rfl : t.kind = j := sees j known
    by_cases kind : u.kind = k
    · simp only [kind, if_true]
      exact ⟨yes.steady.relax (w.seeing_le sees), fun _ => .inr goes⟩
    · simp only [kind, if_false]
      exact ⟨no.steady.relax (w.seeing_le sees), fun _ => .inr goes'⟩

/-- A choice by whether the place is in a subroutine. -/
def whereInside {p q : View → Parse β} (yes : Story w p last) (no : Story w q last) :
    Story w (fun v => (get : Parse Reader) >>= fun r => if r.inSubroutine then p v else q v)
      last where
  script := .look fun _ _ inside => if inside then yes.script else no.script
  tells v r hr := by
    cases inside : r.inSubroutine with
    | true =>
      have told := yes.tells v r hr
      simpa [Script.run, Reader.recast, inside] using told
    | false =>
      have told := no.tells v r hr
      simpa [Script.run, Reader.recast, inside] using told
  keeps := by
    intro _ _ inside sees
    cases inside with
    | true => exact yes.keeps.relax (w.seeing_le sees) fun _ => .refl _
    | false => exact no.keeps.relax (w.seeing_le sees) fun _ => .refl _
  steady := by
    intro _ _ inside sees
    refine ⟨?_, fun _ => .inl rfl⟩
    cases inside with
    | true => exact yes.steady.relax (w.seeing_le sees)
    | false => exact no.steady.relax (w.seeing_le sees)

/-- Taking a token of a kind that is known. -/
def advance {k : Kind} (known : w.current = some k) :
    Story w (fun _ => Parse.advance) fun _ => w.taking k where
  script := .take .done
  tells v r _ := by
    rw [Parse.advance_recast]
    exact congrArg _ (congrFun (bind_pure Parse.advance) r).symm
  keeps := by
    intro t sees
    rw [sees k known]
    exact .refl _
  steady := fun _ _ => trivial

def expect (k : Kind) (e : Expectation) :
    Story w (fun _ => Parse.expect k e) fun _ => w.taking k :=
  .check (.relax (.advance rfl) (.refl _) fun _ => .refl _) (.refuse (GrammarError.expected_ne e))

def accept (k : Kind) :
    Story w (fun _ => Parse.accept k) fun taken => if taken then w.taking k else w :=
  .check (.bind (.advance rfl) fun _ => .done true) (.done false)

/-- A choice by whether a token of some kind was taken. -/
def ifAccepted {k : Kind} {p q : View → Parse β} (yes : Story (w.taking k) p last)
    (no : Story w q last) :
    Story w (fun v => Parse.accept k >>= fun b => if b then p v else q v) last :=
  .bind (.accept k) fun
    | true => yes
    | false => no

end Story

/-! ## Repetition -/

/-- Recasting keeps the kinds and with them the tokens left. -/
theorem Reader.work_recast (φ : Recast) (r : Reader) : (r.recast φ).work = r.work := by
  have ahead : (r.recast φ).ahead = r.ahead.map (Outcome.recast φ) := rfl
  rw [work, ahead, List.countP_map, work]
  congr 1
  funext o
  cases o <;> rfl

/-- The place behind a step of a repetition: a result of it has taken a token. -/
def Site.behind {α : Type} (w : Site) (n : Nat) : Option α → Site
  | none => w.resized n
  | some _ => w.resized (n - 1)

namespace Script

variable {α : Type}

/-- Repeats a step on its own results until it gives none. The bound above the tokens left falls
with each result. -/
def iterate : (n : Nat) → (∀ j ≤ n, α → Script (Option α)) → α → Script α
  | 0, _, _ => refuse .expectedExpression
  | n + 1, step, a => (step (n + 1) (Nat.le_refl _) a).bind fun
    | none => done a
    | some b => iterate n (fun j hj => step j (Nat.le_succ_of_le hj)) b

/-- Collects the results of a step until it gives none. -/
def collect : (n : Nat) → (∀ j ≤ n, Script (Option α)) → Script (List α)
  | 0, _ => refuse .expectedExpression
  | n + 1, step => (step (n + 1) (Nat.le_refl _)).bind fun
    | none => done []
    | some a => (collect n fun j hj => step j (Nat.le_succ_of_le hj)).bind fun as => done (a :: as)

theorem Keeps.iterate {n : Nat} {step : ∀ j ≤ n, α → Script (Option α)} {w : Site}
    (h : ∀ j hj a, (step j hj a).Keeps (w.resized j) (w.behind j)) (a : α) :
    (Script.iterate n step a).Keeps (w.resized n) fun _ => w.resized n := by
  induction n generalizing a with
  | zero => exact nofun
  | succ n ih =>
    refine (h (n + 1) (Nat.le_refl _) a).bind fun
      | none => .refl _
      | some b => ?_
    exact (ih (fun j hj => h j (Nat.le_succ_of_le hj)) b).relax (.refl _) fun _ =>
      w.resized_le (Nat.le_succ n)

theorem Keeps.collect {n : Nat} {step : ∀ j ≤ n, Script (Option α)} {w : Site}
    (h : ∀ j hj, (step j hj).Keeps (w.resized j) (w.behind j)) :
    (Script.collect n step).Keeps (w.resized n) fun _ => w.resized n := by
  induction n with
  | zero => exact nofun
  | succ n ih =>
    refine (h (n + 1) (Nat.le_refl _)).bind fun
      | none => .refl _
      | some b => ?_
    exact (ih fun j hj => h j (Nat.le_succ_of_le hj)).bind fun _ => w.resized_le (Nat.le_succ n)

theorem Steady.iterate {n : Nat} {step : ∀ j ≤ n, α → Script (Option α)} {w : Site}
    (keeps : ∀ j hj a, (step j hj a).Keeps (w.resized j) (w.behind j))
    (h : ∀ j hj a, (step j hj a).Steady (w.resized j)) (a : α) :
    (Script.iterate n step a).Steady (w.resized n) := by
  induction n generalizing a with
  | zero => trivial
  | succ n ih =>
    refine (h (n + 1) (Nat.le_refl _) a).bind (keeps (n + 1) (Nat.le_refl _) a) fun o => ?_
    cases o with
    | none => trivial
    | some b =>
      exact ih (fun j hj => keeps j (Nat.le_succ_of_le hj)) (fun j hj => h j (Nat.le_succ_of_le hj))
        b

theorem Steady.collect {n : Nat} {step : ∀ j ≤ n, Script (Option α)} {w : Site}
    (keeps : ∀ j hj, (step j hj).Keeps (w.resized j) (w.behind j))
    (h : ∀ j hj, (step j hj).Steady (w.resized j)) :
    (Script.collect n step).Steady (w.resized n) := by
  induction n with
  | zero => trivial
  | succ n ih =>
    refine (h (n + 1) (Nat.le_refl _)).bind (keeps (n + 1) (Nat.le_refl _)) fun o => ?_
    cases o with
    | none => trivial
    | some b =>
      have keeps' := fun j hj => keeps j (Nat.le_succ_of_le hj)
      have others := ih keeps' fun j hj => h j (Nat.le_succ_of_le hj)
      exact others.bind (.collect keeps') fun _ => trivial

end Script

namespace Story

variable {α : Type} [Recastable α] {w : Site} {n : Nat} {v : View}

/-- What a step of a repetition tells of itself, for all bounds at once, shows that a result of it
has taken a token, whatever is the bound that its script was made for. -/
theorem work_of_step {step : View → Parse (Option α)}
    (steps : ∀ j ≤ n, Story (w.resized j) step (w.behind j)) {j : Nat} (hj : j ≤ n) {b : α}
    {r r' : Reader} (hr : (w.resized j).Holds r)
    (run : (steps j hj).script.run v.limit r = .ok (some b) r') : r'.work < r.work := by
  have tight : (w.resized (r.work + 1)).Holds r := ⟨hr.depth, Nat.lt_succ_self _, nofun⟩
  have bound : r.work + 1 ≤ n := Nat.le_trans hr.room hj
  have told := (steps j hj).tells v r hr
  rw [(steps _ bound).tells v r tight, run] at told
  cases again : (steps _ bound).script.run v.limit r with
  | error f s => rw [again] at told; cases told
  | ok o s =>
    rw [again] at told
    obtain ⟨value, reader⟩ := EStateM.Result.ok.inj told
    have same := congrArg Reader.work reader
    rw [Reader.work_recast, Reader.work_recast] at same
    cases o with
    | none => cases value
    | some c =>
      rw [← same]
      exact ((steps _ bound).keeps.run tight again).room

section
variable {step : View → α → Parse (Option α)}

theorem iterateWithin_tells
    (steps : ∀ j ≤ n, ∀ a,
      Story (w.resized j) (fun v => step v (recast v.recasting a)) (w.behind j))
    {os : List Outcome} {a : α} {r : Reader} (hr : (w.resized n).Holds r)
    (enough : r.work ≤ os.length) :
    Parse.iterateWithin (step v) os (recast v.recasting a) (r.recast v.recasting) =
      Parse.recastResult v.recasting
        ((Script.iterate n (fun j hj a => (steps j hj a).script) a).run v.limit r) := by
  induction n generalizing os a r with
  | zero => exact absurd hr.room (Nat.not_lt_zero _)
  | succ n ih =>
    have told := (steps (n + 1) (Nat.le_refl _) a).tells v r hr
    rw [Script.iterate, Script.run_bind]
    cases first : (steps (n + 1) (Nat.le_refl _) a).script.run v.limit r with
    | error f r' =>
      rw [first] at told
      rw [Parse.bind_error first]
      cases os <;> exact Parse.bind_error told
    | ok o r' =>
      rw [first] at told
      rw [Parse.bind_ok first]
      cases o with
      | none => cases os <;> exact Parse.bind_ok told
      | some b =>
        have less := work_of_step (fun j hj => steps j hj a) (Nat.le_refl _) hr first
        have behind := (steps (n + 1) (Nat.le_refl _) a).keeps.run hr first
        cases os with
        | nil => exact absurd (Nat.lt_of_lt_of_le less enough) (Nat.not_lt_zero _)
        | cons o os =>
          refine (Parse.bind_ok told).trans ?_
          exact ih (fun j hj => steps j (Nat.le_succ_of_le hj)) behind
            (Nat.le_of_lt_succ (Nat.lt_of_lt_of_le less enough))

/-- A repetition, of which every step that gives a result takes a token. -/
def iterate
    (steps : ∀ j ≤ n, ∀ a,
      Story (w.resized j) (fun v => step v (recast v.recasting a)) (w.behind j)) (a : α) :
    Story (w.resized n) (fun v => Parse.iterate (step v) (recast v.recasting a))
      fun _ => w.resized n where
  script := .iterate n (fun j hj a => (steps j hj a).script) a
  tells v r hr := by
    refine iterateWithin_tells steps hr ?_
    rw [← Reader.work_recast v.recasting]
    exact Reader.work_le _
  keeps := .iterate (fun j hj a => (steps j hj a).keeps) a
  steady := .iterate (fun j hj a => (steps j hj a).keeps) (fun j hj a => (steps j hj a).steady) a

end

section
variable {step : View → Parse (Option α)}

theorem collectWithin_tells (steps : ∀ j ≤ n, Story (w.resized j) step (w.behind j))
    {os : List Outcome} {r : Reader} (hr : (w.resized n).Holds r)
    (enough : r.work ≤ os.length) :
    Parse.collectWithin (step v) os (r.recast v.recasting) =
      Parse.recastResult v.recasting
        ((Script.collect n fun j hj => (steps j hj).script).run v.limit r) := by
  induction n generalizing os r with
  | zero => exact absurd hr.room (Nat.not_lt_zero _)
  | succ n ih =>
    have told := (steps (n + 1) (Nat.le_refl _)).tells v r hr
    rw [Script.collect, Script.run_bind]
    cases first : (steps (n + 1) (Nat.le_refl _)).script.run v.limit r with
    | error f r' =>
      rw [first] at told
      rw [Parse.bind_error first]
      cases os <;> exact Parse.bind_error told
    | ok o r' =>
      rw [first] at told
      rw [Parse.bind_ok first]
      cases o with
      | none => cases os <;> exact Parse.bind_ok told
      | some b =>
        have less := work_of_step steps (Nat.le_refl _) hr first
        have behind := (steps (n + 1) (Nat.le_refl _)).keeps.run hr first
        cases os with
        | nil => exact absurd (Nat.lt_of_lt_of_le less enough) (Nat.not_lt_zero _)
        | cons o os =>
          refine (Parse.bind_ok told).trans ?_
          simp only [Script.run_bind]
          refine Parse.bind_recast (ih (fun j hj => steps j (Nat.le_succ_of_le hj)) behind
            (Nat.le_of_lt_succ (Nat.lt_of_lt_of_le less enough))) fun _ _ _ => rfl

/-- A collection, of which every step that gives a result takes a token. -/
def collect (steps : ∀ j ≤ n, Story (w.resized j) step (w.behind j)) :
    Story (w.resized n) (fun v => Parse.collect (step v)) fun _ => w.resized n where
  script := .collect n fun j hj => (steps j hj).script
  tells v r hr := by
    refine collectWithin_tells steps hr ?_
    rw [← Reader.work_recast v.recasting]
    exact Reader.work_le _
  keeps := .collect fun j hj => (steps j hj).keeps
  steady := .collect (fun j hj => (steps j hj).keeps) fun j hj => (steps j hj).steady

end

/-! ## Lines, lists and levels -/

def skipNewlines : Story w (fun _ => Parse.skipNewlines) fun _ => w.resized w.room :=
  .relax (.iterate (fun _ _ _ => .bind (.accept (.mark .newline)) fun
      | true => .done (some ())
      | false => .done none) ())
    (w.le_resized (Nat.le_refl _)) fun _ => .refl _

def advanceLines {k : Kind} (known : w.current = some k) :
    Story w (fun _ => Parse.advanceLines) fun _ => w.taking k :=
  .bind (.advance known) fun t => .bind .skipNewlines fun _ => .done t

/-- The line ends before a token that ends a construct, and that token. -/
def close {k : Kind} {e : Expectation} {post : α → Site} (a : α) {f : View → α}
    (same : ∀ v, recast v.recasting a = f v := by simp)
    (h : (w.taking k).Le (post a) := by exact .refl _) :
    Story w (fun v => Parse.skipNewlines >>= fun _ => Parse.expect k e >>= fun _ => pure (f v))
      post :=
  .bind .skipNewlines fun _ => .bind (.expect k e) fun _ => .done a same h

/-- Items between commas, each of which takes a token. -/
def commaSeparated {o : List Bracket} {d : Nat} {item : View → Parse α}
    (items : ∀ j ≤ n, Story (Site.within o d j) item fun _ => Site.within o d (j - 1)) :
    Story (Site.within o d n) (fun v => Parse.commaSeparated (item v))
      fun _ => Site.within o d (n - 1) :=
  have less {j : Nat} (hj : j ≤ n - 1) : j - 1 ≤ n := Nat.le_trans (Nat.sub_le j 1)
    (Nat.le_trans hj (Nat.sub_le n 1))
  .bind (items n (Nat.le_refl _)) fun first =>
    .bind (.collect (w := .within o d (n - 1)) fun j hj => .check
      (.bind (.advanceLines rfl) fun _ => .bind (items (j - 1) (less hj)) fun a =>
        .done (some a) (h := Site.within_le (Nat.sub_le _ _)))
      (.done none))
    fun others => .done (first :: others)

/-- A level of nesting, where the open brackets count as many as the reader does. -/
def nested (level : Level) {p : View → Parse α} {post : α → Site}
    (counted : w.depth + 1 = w.brackets.levels + level.extra) (body : Story w.deeper p post) :
    Story w (fun v => Parse.nested v.limit (p v)) fun a => (post a).shallower where
  script := .enter level (body.script.bind fun a => .leave (.done a))
  tells v r hr := by
    have told := body.tells v r.deeper hr.deeper
    simp only [Script.run, Script.run_bind, Parse.nested, Parse.modify_bind, Parse.get_bind]
    by_cases refused : v.limit.any (· < r.deeper.depth)
    · rw [if_pos refused]
      exact (congrFun (if_pos refused) _).trans (Parse.bind_error rfl)
    · rw [if_neg refused]
      exact (congrFun (if_neg refused) _).trans (Parse.bind_recast told fun _ _ _ => rfl)
  keeps := ⟨counted, body.keeps.bind fun _ => .refl _⟩
  steady := body.steady.bind body.keeps fun _ => trivial

def inSubroutine {p : View → Parse α} {post : α → Site} (body : Story w p post) :
    Story w (fun v => Parse.inSubroutine (p v)) post where
  script := .look fun _ _ enclosing => .mark true (body.script.bind fun a =>
    .mark enclosing (.done a))
  tells v r hr := by
    have told := body.tells v (r.marked true) (hr.marked true)
    simp only [Script.run, Script.run_bind, Parse.inSubroutine, Parse.modify_bind, Parse.get_bind]
    exact Parse.bind_recast told fun _ _ _ => rfl
  keeps := fun _ _ _ sees =>
    (body.keeps.relax (w.seeing_le sees) fun _ => .refl _).bind fun _ => .refl _
  steady := fun _ _ _ sees =>
    ⟨(body.steady.relax (w.seeing_le sees)).bind (body.keeps.relax (w.seeing_le sees)
      fun _ => .refl _) fun _ => trivial, fun _ => .inl rfl⟩

end Story
end AresSyntax
