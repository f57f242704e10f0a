import AresSyntax.Proofs.Reader.Gaining
import AresSyntax.Proofs.Soundness.Expressions

/-!
Reading binary operators by climbing their levels gives what a ladder of rules gives, one rule for
each level, which all read the next tighter level.

* `Grammar.level`, `Grammar.ladder`: the rules of the ladder;
* `Grammar.climb_eq_level`: climbing from a level up is the rule for this level;
* `OpTree`, `OpTree.Ordered`: trees of operators over operands, and those that group the operators
  of a chain by their levels and to the left;
* `Grammar.level_chain`: the rule for a level reads a front of a chain as such a tree;
* `Grammar.assignment_ladder`: assignments, and chains without one.
-/
namespace AresSyntax

theorem Kind.rank_eq_zero {k : Kind} (other : ∀ op, k ≠ .binary op) : k.precedence.rank = 0 := by
  cases k with
  | binary op => exact absurd rfl (other op)
  | _ => rfl

namespace Parse

/-- Whatever follows a token of the text, the token is gone. -/
theorem work_lt_of_advanceLines {r r' : Reader} {t : Token} (h : advanceLines r = .ok t r')
    (more : r.current.kind ≠ .endOfText) : r'.work < r.work := by
  obtain ⟨u, s, taken, rest⟩ := bind_eq_ok.1 h
  obtain ⟨_, s', lines, last⟩ := bind_eq_ok.1 rest
  obtain ⟨-, rfl⟩ := pure_eq_ok.1 last
  have same := (Reader.shift_of_advance taken).1
  have less := (Restores.skipNewlines.result lines).1.work_le
  exact Nat.lt_of_le_of_lt less (Reader.work_lt_of_advance taken (same ▸ more))

end Parse

namespace Grammar
open Parse

/-! ## The ladder -/

/-- The operator at hand above `left` and its right operand. -/
def folded (right : Parse Tree) (left : Tree) : Parse (Option Tree) := do
  let op ← current
  let _ ← advanceLines
  return some (.node op [left, ← right])

/-- The operator of just this level and its right operand, above `left`, if such an operator
follows. -/
def foldAt? (rank : Nat) (right : Parse Tree) (left : Tree) : Parse (Option Tree) := do
  let op ← current
  if op.kind.precedence.rank = rank then folded right left else return none

/-- The rule for the `n`th level above the operands: the next tighter level, and as long as an
operator of this level follows, the operator and the next tighter level once more. -/
def level (operand : Parse Tree) : (n : Nat) → Parse Tree
  | 0 => operand
  | n + 1 => do
    iterate (foldAt? (Precedence.unary.rank - (n + 1)) (level operand n)) (← level operand n)

/-- The rule above all levels: a target, an assignment operator and a value, or anything that binds
tighter. At most `stack` rules wait for another one. -/
def ladder (limit : Option Nat) : (stack : Nat) → Parse Tree
  | 0 => refuse .nestedTooDeeply
  | stack + 1 => do
    let left ← level (operand limit (reading limit stack))
      (Precedence.unary.rank - Precedence.range.rank)
    let op ← current
    if op.kind.isAssignment then
      if left.kind.isAssignable then
        let _ ← advanceLines
        return .node op [left, ← ladder limit stack]
      else refuse .assignmentTarget
    else return left

section
variable {r r' : Reader} {least : Nat} {right : Nat → Parse Tree} {left : Tree}

theorem fold?_eq : fold? least right left r =
    if least ≤ r.current.kind.precedence.rank then
      folded (right (r.current.kind.precedence.rank + 1)) left r
    else .ok none r := by
  simp only [fold?, current_bind]
  split <;> rfl

theorem foldAt?_eq {q : Parse Tree} : foldAt? least q left r =
    if r.current.kind.precedence.rank = least then folded q left r else .ok none r := by
  simp only [foldAt?, current_bind]
  split <;> rfl

theorem folded_eq_ok {q : Parse Tree} {o : Option Tree} : folded q left r = .ok o r' ↔
    ∃ op s e, advanceLines r = .ok op s ∧ q s = .ok e r' ∧
      o = some (.node r.current [left, e]) := by
  simp only [folded, current_bind, bind_eq_ok, pure_eq_ok]
  constructor
  · rintro ⟨op, s, lines, e, _, ran, rfl, rfl⟩
    exact ⟨op, s, e, lines, ran, rfl⟩
  · rintro ⟨op, s, e, lines, ran, rfl⟩
    exact ⟨op, s, lines, e, _, ran, rfl, rfl⟩

/-- An operator and its operand leave fewer tokens. -/
theorem work_lt_of_folded {q : Parse Tree} {o : Option Tree} (hq : q.Restores)
    (binary : 0 < r.current.kind.precedence.rank) (h : folded q left r = .ok o r') :
    r'.work < r.work := by
  obtain ⟨op, s, e, lines, ran, -⟩ := folded_eq_ok.1 h
  have more : r.current.kind ≠ .endOfText := by
    intro last
    rw [last] at binary
    exact absurd binary (by decide)
  exact Nat.lt_of_le_of_lt (hq.result ran).1.work_le (work_lt_of_advanceLines lines more)

theorem foldAt?_restores {q : Parse Tree} (hq : q.Restores) (rank : Nat) (left : Tree) :
    (foldAt? rank q left).Restores :=
  .bind .current fun _ => .ite
    (.bind .current fun _ => .bind .advanceLines fun _ => .bind hq fun _ => .pure _) (.pure _)

theorem level_restores {operand : Parse Tree} (h : operand.Restores) (n : Nat) :
    (level operand n).Restores := by
  induction n with
  | zero => exact h
  | succ n ih => exact .bind ih fun left => .iterate (foldAt?_restores ih _) left

/-- Holds for steps that put an operator at hand above a tree, or give nothing. -/
def Folding (step : Tree → Parse (Option Tree)) : Prop :=
  ∀ left r, step left r = .ok none r ∨ ∃ q : Parse Tree, q.Restores ∧
    0 < r.current.kind.precedence.rank ∧ step left r = folded q left r

theorem fold?_folding (hright : ∀ k, (right k).Restores) (positive : 0 < least) :
    Folding (fold? least right) := by
  intro left r
  rw [fold?_eq]
  split
  · rename_i tight
    exact .inr ⟨_, hright _, Nat.lt_of_lt_of_le positive tight, rfl⟩
  · exact .inl rfl

theorem foldAt?_folding {q : Parse Tree} (hq : q.Restores) (positive : 0 < least) :
    Folding (foldAt? least q) := by
  intro left r
  rw [foldAt?_eq]
  split
  · rename_i same
    exact .inr ⟨q, hq, same ▸ positive, rfl⟩
  · exact .inl rfl

namespace Folding

variable {step : Tree → Parse (Option Tree)} (h : Folding step)
include h

theorem lowering (left : Tree) : (step left).Lowering (fun _ => True) Reader.work := by
  intro r t r' _ ran
  obtain none | ⟨q, hq, binary, folds⟩ := h left r
  · rw [none] at ran
    cases ran
  · exact ⟨trivial, work_lt_of_folded hq binary (folds.symm.trans ran)⟩

theorem iterate_of_some {t : Tree} (ran : step left r = .ok (some t) r') :
    iterate step left r = iterate step t r' := by
  rw [iterate_of_lowering (fun r _ => r.work_le) h.lowering trivial, ran]

end Folding

/-- Without an operator to take, the steps of a climb are over. -/
theorem iterate_fold?_of_lt (loose : r.current.kind.precedence.rank < least) :
    iterate (fold? least right) left r = .ok left r :=
  iterate_of_none (fold?_eq.trans (if_neg (Nat.not_le.2 loose)))

theorem iterate_foldAt?_of_ne {q : Parse Tree} (other : r.current.kind.precedence.rank ≠ least) :
    iterate (foldAt? least q) left r = .ok left r :=
  iterate_of_none (foldAt?_eq.trans (if_neg other))

/-- The steps of a climb end where no operator of its levels is left. -/
theorem rank_lt_of_iterate_fold? (hright : ∀ k, (right k).Restores) (positive : 0 < least)
    {t : Tree} (h : iterate (fold? least right) left r = .ok t r') :
    r'.current.kind.precedence.rank < least := by
  have run := (iterate_eq_ok_of_lowering (fun r _ => r.work_le)
    (fold?_folding hright positive).lowering trivial).1 h
  clear h
  induction run with
  | @stop left r r' last =>
    rw [fold?_eq] at last
    split at last
    · obtain ⟨_, _, _, _, _, given⟩ := folded_eq_ok.1 last
      cases given
    · rename_i loose
      cases last
      exact Nat.lt_of_not_le loose
  | next _ _ ih => exact ih

/-- The steps of a climb are those of the climb one level tighter, and then those for the operators
of just the level itself: both climbs take a tighter operator in the same step, and one of the level
itself, where the second one does in its second part. Behind each of these stands an operand that
leaves no tighter operator, so there are no steps of the tighter climb in between. -/
theorem iterate_fold?_succ (hright : ∀ k, (right k).Restores) (positive : 0 < least)
    (stops : ∀ {r t r'}, right (least + 1) r = .ok t r' →
      r'.current.kind.precedence.rank < least + 1) (left : Tree) (r : Reader) :
    iterate (fold? least right) left r =
      (iterate (fold? (least + 1) right) left >>=
        iterate (foldAt? least (right (least + 1)))) r := by
  have climb := fold?_folding hright positive
  have tighter := fold?_folding hright (Nat.succ_pos least)
  have atLevel := foldAt?_folding (hright (least + 1)) positive
  induction work : r.work using Nat.strongRecOn generalizing left r with
  | ind n ih =>
    obtain loose | same | tight := Nat.lt_trichotomy r.current.kind.precedence.rank least
    · rw [iterate_fold?_of_lt loose, bind_ok (iterate_fold?_of_lt (Nat.lt_succ_of_lt loose)),
        iterate_foldAt?_of_ne (Nat.ne_of_lt loose)]
    · have step : fold? least right left r = folded (right (least + 1)) left r := by
        rw [fold?_eq, if_pos (Nat.le_of_eq same.symm), same]
      have stepAt : foldAt? least (right (least + 1)) left r = folded (right (least + 1)) left r :=
        foldAt?_eq.trans (if_pos same)
      rw [bind_ok (iterate_fold?_of_lt (by omega))]
      cases ran : folded (right (least + 1)) left r with
      | error e s =>
        rw [iterate_of_error (step.trans ran), iterate_of_error (stepAt.trans ran)]
      | ok o s =>
        have less := work_lt_of_folded (hright _) (same ▸ positive) ran
        obtain ⟨op, s', e, -, read, rfl⟩ := folded_eq_ok.1 ran
        rw [climb.iterate_of_some (step.trans ran), atLevel.iterate_of_some (stepAt.trans ran),
          ih _ (work ▸ less) _ s rfl, bind_ok (iterate_fold?_of_lt (stops read))]
    · have step : fold? least right left r = fold? (least + 1) right left r := by
        rw [fold?_eq, fold?_eq, if_pos (Nat.le_of_lt tight), if_pos (Nat.succ_le_of_lt tight)]
      cases ran : fold? (least + 1) right left r with
      | error e s =>
        rw [iterate_of_error (step.trans ran), bind_error (iterate_of_error ran)]
      | ok o s =>
        have folds := ran
        rw [fold?_eq, if_pos (Nat.succ_le_of_lt tight)] at folds
        have less := work_lt_of_folded (hright _) (Nat.zero_lt_of_lt tight) folds
        obtain ⟨op, s', e, -, read, rfl⟩ := folded_eq_ok.1 folds
        rw [climb.iterate_of_some (step.trans ran), ih _ (work ▸ less) _ s rfl]
        exact bind_eq_bind (tighter.iterate_of_some ran).symm

end

section
variable {operand : Parse Tree}

/-- Above all levels there is nothing to climb. -/
theorem climb_unary (levels : Nat) : climb operand levels Precedence.unary.rank = operand := by
  cases levels with
  | zero => rfl
  | succ levels =>
    funext r
    cases ran : operand r with
    | error e s => exact bind_error ran
    | ok left s => exact (bind_ok ran).trans (iterate_fold?_of_lt (Kind.rank_lt _))

/-- No operator of the levels of a climb is left behind it. -/
theorem rank_lt_of_climb (restores : operand.Restores) {levels least : Nat} (positive : 0 < least)
    (enough : Precedence.unary.rank ≤ levels + least) {r r' : Reader} {t : Tree}
    (h : climb operand levels least r = .ok t r') : r'.current.kind.precedence.rank < least := by
  cases levels with
  | zero => exact Nat.lt_of_lt_of_le (Kind.rank_lt _) (by omega)
  | succ levels =>
    obtain ⟨left, s, -, steps⟩ := bind_eq_ok.1 h
    exact rank_lt_of_iterate_fold? (climb_restores restores levels) positive steps

/-- Climbing the last `n` levels is the rule for the lowest of them. -/
theorem climb_eq_level (restores : operand.Restores) {n levels : Nat}
    (below : n < Precedence.unary.rank) (enough : n ≤ levels) :
    climb operand levels (Precedence.unary.rank - n) = level operand n := by
  induction n generalizing levels with
  | zero => exact climb_unary levels
  | succ n ih =>
    obtain _ | levels := levels
    · exact absurd enough (Nat.not_succ_le_zero n)
    generalize least : Precedence.unary.rank - (n + 1) = k
    have next : Precedence.unary.rank - n = k + 1 := by omega
    have positive : 0 < k := by omega
    have tighter {levels : Nat} (enough : n ≤ levels) :
        climb operand levels (k + 1) = level operand n := next ▸ ih (by omega) enough
    have stops {r : Reader} {t : Tree} {r' : Reader}
        (h : climb operand levels (k + 1) r = .ok t r') :
        r'.current.kind.precedence.rank < k + 1 :=
      rank_lt_of_climb restores (Nat.succ_pos k) (by omega) h
    calc climb operand (levels + 1) k
      _ = operand >>= fun left => iterate (fold? k (climb operand levels)) left := rfl
      _ = operand >>= fun left => iterate (fold? (k + 1) (climb operand levels)) left >>=
            iterate (foldAt? k (climb operand levels (k + 1))) :=
          congrArg _ (funext fun left => funext fun r =>
            iterate_fold?_succ (climb_restores restores levels) positive stops left r)
      _ = climb operand (levels + 1) (k + 1) >>=
            iterate (foldAt? k (climb operand levels (k + 1))) := (bind_assoc _ _ _).symm
      _ = level operand n >>= iterate (foldAt? k (level operand n)) := by
          rw [tighter (by omega), tighter (by omega)]
      _ = level operand (n + 1) := by rw [level, least]

end

/-- Assignments are read as the ladder reads them. -/
theorem reading_eq_ladder (limit : Option Nat) (stack : Nat) :
    reading limit stack .assignment = ladder limit stack := by
  induction stack with
  | zero => rfl
  | succ stack ih =>
    have restores : (operand limit (reading limit stack)).Restores :=
      operand_restores (reading_restores limit stack)
    have levels := climb_eq_level restores (n := Precedence.unary.rank - Precedence.range.rank)
      (by decide) (Nat.le_refl _)
    change assignment limit (reading limit stack) = _
    rw [assignment, ladder, binary, ← ih, ← levels]
    rfl

end Grammar

/-! ## Trees of a chain -/

/-- Binary operators above operands. -/
inductive OpTree
  | operand (e : Tree)
  | node (op : Token) (left right : OpTree)

namespace OpTree

def tree : OpTree → Tree
  | operand e => e
  | node op left right => .node op [left.tree, right.tree]

/-- The operand that stands first in the text. -/
def first : OpTree → Tree
  | operand e => e
  | node _ left _ => left.first

/-- The operators in the order of the text, each with the operand behind it. -/
def rest : OpTree → List (Token × Tree)
  | operand _ => []
  | node op left right => left.rest ++ (op, right.first) :: right.rest

/-- The level of the root, where operands are above all binary operators. -/
def rank : OpTree → Nat
  | operand _ => Precedence.unary.rank
  | node op _ _ => op.kind.precedence.rank

/-- Holds for trees in which the left child of an operator binds at least as tightly as the
operator, and the right child tighter. -/
inductive Ordered : OpTree → Prop
  | operand (e : Tree) : Ordered (.operand e)
  | node {op : Token} {l r : OpTree} (left : op.kind.precedence.rank ≤ l.rank)
      (right : op.kind.precedence.rank < r.rank) (hl : l.Ordered) (hr : r.Ordered) :
      Ordered (.node op l r)

/-- No operator of a tree binds looser than its root. -/
theorem Ordered.rank_le {t : OpTree} (h : t.Ordered) {op : Token} {e : Tree}
    (mem : (op, e) ∈ t.rest) : t.rank ≤ op.kind.precedence.rank := by
  induction h with
  | operand e => cases mem
  | node left right hl hr ihl ihr =>
    rw [rest, List.mem_append, List.mem_cons] at mem
    obtain mem | root | mem := mem
    · exact Nat.le_trans left (ihl mem)
    · cases root
      exact Nat.le_refl _
    · exact Nat.le_trans (Nat.le_of_lt right) (ihr mem)

/-- Of two ordered trees for one chain, neither has its root in front of the root of the other. Its
operator would be in the left child of the other root and bind at least as tightly, and the other
root would be in its own right child and bind tighter. -/
theorem Ordered.root_le {op op' : Token} {l r l' r' : OpTree} (h : (OpTree.node op l r).Ordered)
    (h' : (OpTree.node op' l' r').Ordered)
    (rest : (OpTree.node op l r).rest = (OpTree.node op' l' r').rest) :
    l'.rest.length ≤ l.rest.length := by
  obtain ⟨between, before, after⟩ | ⟨between, before, -⟩ := List.append_eq_append_iff.1 rest
  · cases between with
    | nil => simp [before]
    | cons root between =>
      obtain ⟨rfl, behind⟩ := List.cons_eq_cons.1 after
      cases h with
      | node _ right _ hr =>
      cases h' with
      | node left _ hl _ =>
        have inLeft : (op, r.first) ∈ l'.rest := by simp [before]
        have inRight : (op', r'.first) ∈ r.rest := by simp [behind]
        have loose := hl.rank_le inLeft
        have tight := hr.rank_le inRight
        omega
  · simp [before]

/-- An ordered tree is known from its chain. -/
theorem Ordered.unique {t t' : OpTree} (h : t.Ordered) (h' : t'.Ordered)
    (first : t.first = t'.first) (rest : t.rest = t'.rest) : t = t' := by
  induction h generalizing t' with
  | operand e =>
    cases h' with
    | operand e' => exact congrArg _ first
    | node => simp [OpTree.rest] at rest
  | @node op l r left right hl hr ihl ihr =>
    have whole := Ordered.node left right hl hr
    cases h' with
    | operand e' => simp [OpTree.rest] at rest
    | @node op' l' r' left' right' hl' hr' =>
      have whole' := Ordered.node left' right' hl' hr'
      have length : l.rest.length = l'.rest.length :=
        Nat.le_antisymm (whole'.root_le whole rest.symm) (whole.root_le whole' rest)
      obtain ⟨before, after⟩ := List.append_inj rest length
      obtain ⟨root, behind⟩ := List.cons_eq_cons.1 after
      obtain ⟨rfl, second⟩ := Prod.mk.inj root
      rw [ihl hl' first before, ihr hr' second behind]

end OpTree

namespace Grammar
open Parse

/-! ## Reading a chain -/

/-- Binary operators with an operand behind each of them, from a reader up to another one. -/
inductive Operands (operand : Parse Tree) : Reader → List (Token × Tree) → Reader → Prop
  | nil (r : Reader) : Operands operand r [] r
  | cons {r s s' r' : Reader} {sign : Token} {op : BinaryOp} {e : Tree}
      {rest : List (Token × Tree)} (binary : sign.kind = .binary op)
      (lines : advanceLines r = .ok sign s) (next : operand s = .ok e s')
      (more : Operands operand s' rest r') : Operands operand r ((sign, e) :: rest) r'

/-- What is known where a front of the chain from `first` on was read: it is an ordered tree, and
the other operators are still ahead. -/
structure Front (operand : Parse Tree) (first : Tree) (rest : List (Token × Tree)) (r' : Reader)
    (t : OpTree) (behind : List (Token × Tree)) (m : Reader) : Prop where
  ordered : t.Ordered
  first : t.first = first
  cut : t.rest ++ behind = rest
  more : Operands operand m behind r'

/-- Holds for requests that read a front of any chain up to `r'`, with no operator of level `least`
or tighter behind it. -/
def Groups (operand : Parse Tree) (r' : Reader) (least : Nat) (p : Parse Tree) : Prop :=
  ∀ (r s : Reader) (first : Tree) (rest : List (Token × Tree)), operand r = .ok first s →
    Operands operand s rest r' → ∃ t behind m, p r = .ok t.tree m ∧
      Front operand first rest r' t behind m ∧ least ≤ t.rank ∧
      m.current.kind.precedence.rank < least

section
variable {operand : Parse Tree} {first : Tree} {rest behind : List (Token × Tree)} {r' m : Reader}
  {t : OpTree} {least : Nat}

theorem token_of_advanceLines {r s : Reader} {sign : Token} (h : advanceLines r = .ok sign s) :
    sign = r.current := by
  obtain ⟨u, s₁, taken, rest⟩ := bind_eq_ok.1 h
  obtain ⟨_, s₂, -, last⟩ := bind_eq_ok.1 rest
  rw [← (pure_eq_ok.1 last).1]
  exact (Reader.shift_of_advance taken).1

/-- The chain is over where no operator stands. -/
theorem Operands.ended (h : Operands operand m behind r')
    (loose : m.current.kind.precedence.rank < Precedence.range.rank) : behind = [] ∧ m = r' := by
  cases h with
  | nil => exact ⟨rfl, rfl⟩
  | @cons _ _ _ _ _ op _ _ binary lines =>
    rw [← token_of_advanceLines lines, binary] at loose
    exact absurd loose (Nat.not_lt.2 op.rank_bounds.1)

/-- The steps of a level take all operators of the level at hand, each with what the next tighter
level reads, if that leaves no tighter operator. -/
theorem Front.iterate_foldAt? {q : Parse Tree} (hq : q.Restores) (positive : 0 < least)
    (ended : r'.current.kind.precedence.rank = 0) (groups : Groups operand r' (least + 1) q)
    (front : Front operand first rest r' t behind m) (tight : least ≤ t.rank)
    (loose : m.current.kind.precedence.rank ≤ least) :
    ∃ t' behind' m', iterate (foldAt? least q) t.tree m = .ok t'.tree m' ∧
      Front operand first rest r' t' behind' m' ∧ least ≤ t'.rank ∧
      m'.current.kind.precedence.rank < least := by
  induction length : behind.length using Nat.strongRecOn generalizing t behind m with
  | ind n ih =>
    obtain looser | same := Nat.lt_or_eq_of_le loose
    · exact ⟨t, behind, m, iterate_foldAt?_of_ne (Nat.ne_of_lt looser), front, tight, looser⟩
    obtain ⟨ordered, starts, cut, more⟩ := front
    cases more with
    | nil => omega
    | @cons _ s s' _ sign op e more binary lines next further =>
      obtain rfl := token_of_advanceLines lines
      obtain ⟨u, behind', m', ran, ⟨ordered', starts', rfl, further'⟩, tighter, stop⟩ :=
        groups _ _ _ _ next further
      have step : foldAt? least q t.tree m =
          .ok (some (OpTree.node m.current t u).tree) m' :=
        foldAt?_eq.trans ((if_pos same).trans (folded_eq_ok.2 ⟨_, _, _, lines, ran, rfl⟩))
      rw [(foldAt?_folding hq positive).iterate_of_some step]
      refine ih behind'.length ?_ ⟨.node ?_ ?_ ordered ordered', starts, ?_, further'⟩ ?_ ?_ rfl
      · rw [← length, List.length_cons, List.length_append]
        omega
      · rwa [same]
      · rwa [same]
      · rw [← cut, OpTree.rest, starts']
        simp
      · exact Nat.le_of_eq same.symm
      · exact Nat.le_of_lt_succ stop

/-- The rule for a level reads a front of a chain as an ordered tree. -/
theorem level_groups (restores : operand.Restores) (ended : r'.current.kind.precedence.rank = 0)
    {n : Nat} (below : n < Precedence.unary.rank) :
    Groups operand r' (Precedence.unary.rank - n) (level operand n) := by
  induction n with
  | zero =>
    intro r s first rest start chain
    exact ⟨.operand first, rest, s, start, ⟨.operand first, rfl, rfl, chain⟩, Nat.le_refl _,
      Kind.rank_lt _⟩
  | succ n ih =>
    intro r s first rest start chain
    have next : Precedence.unary.rank - n = Precedence.unary.rank - (n + 1) + 1 := by omega
    have tighter := ih (by omega)
    rw [next] at tighter
    obtain ⟨t, behind, m, ran, front, tight, stop⟩ := tighter r s first rest start chain
    obtain ⟨t', behind', m', steps, read⟩ :=
      front.iterate_foldAt? (level_restores restores n) (by omega) ended tighter
        (Nat.le_of_succ_le tight) (Nat.le_of_lt_succ stop)
    exact ⟨t', behind', m', bind_eq_ok.2 ⟨_, _, ran, steps⟩, read⟩

/-- The rule for the loosest level reads a chain up to its end. -/
theorem level_chain (restores : operand.Restores) {r s : Reader} (start : operand r = .ok first s)
    (chain : Operands operand s rest r') (ended : ∀ op, r'.current.kind ≠ .binary op) :
    ∃ t : OpTree, t.Ordered ∧ t.first = first ∧ t.rest = rest ∧
      level operand (Precedence.unary.rank - Precedence.range.rank) r = .ok t.tree r' := by
  obtain ⟨t, behind, m, ran, front, -, stop⟩ :=
    level_groups restores (Kind.rank_eq_zero ended)
      (n := Precedence.unary.rank - Precedence.range.rank) (by decide) r s first rest start chain
  obtain ⟨rfl, rfl⟩ := front.more.ended stop
  exact ⟨t, front.ordered, front.first, by simpa using front.cut, ran⟩

end

/-- Assignments are read as by a ladder of rules, one for each level of binary operators. So a chain
of operators and operands with no assignment behind it gives an ordered tree, which is the only one
for the chain. -/
theorem assignment_ladder (limit : Option Nat) (stack : Nat) :
    reading limit stack .assignment = ladder limit stack ∧
    ∀ (r s r' : Reader) (first : Tree) (rest : List (Token × Tree)),
      operand limit (reading limit stack) r = .ok first s →
      Operands (operand limit (reading limit stack)) s rest r' →
      (∀ op, r'.current.kind ≠ .binary op) → r'.current.kind.isAssignment = false →
      ∃ t : OpTree, t.Ordered ∧ t.first = first ∧ t.rest = rest ∧
        reading limit (stack + 1) .assignment r = .ok t.tree r' ∧
        ∀ t' : OpTree, t'.Ordered → t'.first = first → t'.rest = rest → t' = t := by
  refine ⟨reading_eq_ladder limit stack, fun r s r' first rest start chain ended noAssign => ?_⟩
  have restores : (operand limit (reading limit stack)).Restores :=
    operand_restores (reading_restores limit stack)
  obtain ⟨t, ordered, starts, chained, read⟩ := level_chain restores start chain ended
  refine ⟨t, ordered, starts, chained, ?_, fun t' ordered' starts' chained' => ?_⟩
  · rw [reading_eq_ladder, ladder, bind_ok read, current_bind, noAssign]
    rfl
  · exact ordered'.unique ordered (starts'.trans starts.symm) (chained'.trans chained.symm)

/-- A product in a difference, which is the left operand of another one. -/
theorem assignment_ladder_differences : ∃ start t r',
    Reader.start (Cursor.ofText "f.ares" "a-b*c-d").stream = .ok start ∧
      reading none 2 .assignment start = .ok t r' ∧ t.render = "(- (- a (* b c)) d)" := by
  have started : Reader.start (Cursor.ofText "f.ares" "a-b*c-d").stream = .ok
      ⟨⟨.literal .ident, "a", none, ⟨⟨1, 1, 0⟩, "f.ares"⟩⟩,
        ⟨.binary .minus, "-", none, ⟨⟨1, 2, 1⟩, "f.ares"⟩⟩,
        ⟨[.ok ⟨.literal .ident, "b", none, ⟨⟨1, 3, 2⟩, "f.ares"⟩⟩,
          .ok ⟨.binary .times, "*", none, ⟨⟨1, 4, 3⟩, "f.ares"⟩⟩,
          .ok ⟨.literal .ident, "c", none, ⟨⟨1, 5, 4⟩, "f.ares"⟩⟩,
          .ok ⟨.binary .minus, "-", none, ⟨⟨1, 6, 5⟩, "f.ares"⟩⟩,
          .ok ⟨.literal .ident, "d", none, ⟨⟨1, 7, 6⟩, "f.ares"⟩⟩],
          .endOfText ⟨⟨1, 8, 7⟩, "f.ares"⟩⟩, 0, false⟩ := by
    set_option maxRecDepth 2000 in rfl
  generalize shown : Reader.mk _ _ _ 0 false = start at started
  obtain ⟨first, s, rest, r', u, read, chain, last, ordered, starts, chained, text⟩ :
      ∃ first s rest r', ∃ u : OpTree, operand none (reading none 1) start = .ok first s ∧
        Operands (operand none (reading none 1)) s rest r' ∧ r'.current.kind = .endOfText ∧
        u.Ordered ∧ u.first = first ∧ u.rest = rest ∧
        u.tree.render = "(- (- a (* b c)) d)" := by
    subst shown
    refine ⟨_, _, _, _, .node _ (.node _ (.operand _) (.node _ (.operand _) (.operand _)))
      (.operand _), rfl, .cons rfl rfl rfl (.cons rfl rfl rfl (.cons rfl rfl rfl (.nil _))), rfl,
      .node ?_ ?_ (.node ?_ ?_ (.operand _) (.node ?_ ?_ (.operand _) (.operand _))) (.operand _),
      rfl, rfl, rfl⟩
    all_goals decide
  obtain ⟨t, -, -, -, assigned, unique⟩ := (assignment_ladder none 1).2 start s r' first rest read
    chain (by simp [last]) (by rw [last]; rfl)
  rw [unique u ordered starts chained] at text
  exact ⟨start, t.tree, r', started, assigned, text⟩

end Grammar
end AresSyntax
