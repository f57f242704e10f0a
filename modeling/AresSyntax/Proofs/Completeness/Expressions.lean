import AresSyntax.Proofs.Soundness.Expressions
import AresSyntax.Proofs.Completeness.Blocks

/-!
Expressions find what the grammar derives. Trailers and operators of one level are repeated steps
on what was read before, while the grammar has the last of them outermost; `Resumes` says that
reading a phrase from its start is the same as going on behind it.

* `atom_complete`, `trailed_resumes`, `operand_complete`: what stands between binary operators;
* `level_resumes`: operators from a level up;
* `assignment_complete`, `expression_complete`: whole expressions.
-/
namespace AresSyntax

/-- Between the tokens of a construct a rule less may wait than around them, and fewer tokens than
in the construct need one. -/
theorem Room.inside {limit : Option Nat} {most more more' : Nat} {c : Context} {t : Token}
    {ts ts₁ rest rest₁ : List Token} (room : Room limit (most + 1) c (t :: ts) rest more)
    (before : ts₁ <:+ ts) (behind : rest <:+ rest₁) (chains : more' < more) :
    Room limit most c ts₁ rest₁ more' := by
  refine room.imp (fun enough => ?_) (by omega)
  have hb := before.length_le
  have hr := behind.length_le
  rw [List.length_cons] at enough
  omega

/-- An expression ends before line ends and a sign that ends it. -/
theorem Newlines.ends {ts rest : List Token} (h : Newlines ts rest)
    (hk : (firstKind rest).continues = false) :
    (firstKind ts).continues = false := by
  obtain newline | same := h.starts
  · rw [newline]; rfl
  · rw [same, hk]

/-- An expression goes on with trailers, operators and assignments alone. -/
theorem Kind.not_continues {k : Kind} (h : k.continues = false) : k.opensTrailer = false ∧
    k.precedence.rank < Precedence.range.rank ∧ k.isAssignment = false := by
  cases k with
  | binary op => cases h
  | assign op => cases h
  | _ => exact ⟨h, Nat.zero_lt_two, rfl⟩

namespace Token

variable {s : Token}

theorem asPrefixOperator_minus (h : s.kind = .binary .minus) :
    s.asPrefixOperator = { s with kind := .negate } :=
  if_pos h

theorem asPrefixOperator_of_ne (h : s.kind ≠ .binary .minus) : s.asPrefixOperator = s :=
  if_neg h

theorem waits_asPrefixOperator (h : s.kind.isUnaryOperator = true) :
    s.asPrefixOperator.kind.waits = true := by
  obtain sign | sign | sign := Kind.isUnaryOperator_iff.1 h <;>
    simp [asPrefixOperator, sign] <;> rfl

end Token

namespace Grammar
open Parse

variable {limit : Option Nat} {most : Nat} {again : Grammar} {c : Context}
  {ts ts₁ ts₂ rest : List Token} {x : Token} {u : Tree} {us : List Tree}

/-- An expression inside a construct, which ends where the expression does not go on. -/
theorem CompleteUpTo.expression (ha : again.CompleteUpTo limit most)
    (h : Derives limit .expression c ts rest [u])
    (room : Room limit most c ts rest (u.chain Kind.waits))
    (ends : (firstKind rest).continues = false) : Takes c ts rest (again .expression) u :=
  ha .expression h (room.imp id (by simp [Goal.waiting])) (by simp [Goal.endsBefore, ends])

/-- The value of an assignment, which ends where the whole assignment does. -/
theorem CompleteUpTo.assignment (ha : again.CompleteUpTo limit most)
    (h : Derives limit .assignment c ts rest [u])
    (room : Room limit most c ts rest (1 + u.chain Kind.waits))
    (ends : (firstKind rest).continues = false) : Takes c ts rest (again .assignment) u :=
  ha .assignment h room (by simp [Goal.endsBefore, ends])

theorem group_complete {o : Token} (ha : again.CompleteUpTo limit most)
    (opening : o.kind = .mark .openParen) (before : Newlines ts ts₁)
    (inner : Derives limit .expression c ts₁ ts₂ [u]) (behind : Newlines ts₂ (x :: rest))
    (closing : x.kind = .mark .closeParen)
    (room : Room limit (most + 1) c (o :: ts) rest (1 + u.chain Kind.waits)) :
    Takes c (o :: ts) rest (group again) u := by
  have space := room.inside before.suffix (suffix_of_cons_suffix behind.suffix)
    (Nat.lt_one_add_iff.2 (Nat.le_refl _))
  have found := ha.expression inner space (behind.ends (by rw [firstKind_cons, closing]; rfl))
  apply Takes.bind (.advanceLines (by simp [opening]) before (inner.not_starts rfl))
  apply Takes.bind found
  apply Takes.bind (.skipNewlines behind (by simp [closing]))
  exact .bind (.expect closing (by decide)) .pure

/-- The expressions up to a closing sign, from behind the line ends before them. -/
theorem expressions_complete {closing : Mark} {e : Expectation} (hs : again.Sound limit)
    (ha : again.CompleteUpTo limit most) (before : Newlines ts ts₁)
    (items : Derives limit (.list .expression) c ts₁ ts₂ us) (behind : Newlines ts₂ (x :: rest))
    (last : x.kind = .mark closing) (sign : closing = .closeParen ∨ closing = .closeBracket)
    (room : Room limit most c ts₁ ts₂ (Tree.chainAll Kind.waits us)) :
    ∃ ts', Newlines ts ts' ∧ firstKind ts' ≠ .mark .newline ∧
      Takes c ts' rest (expressions again closing e) us := by
  have ends : (firstKind ts₂).continues = false :=
    behind.ends (by rcases sign with rfl | rfl <;> (rw [firstKind_cons, last]; rfl))
  have found : FindsItems limit .expression c ts₁ ts₂ us (again .expression) := by
    intro ts' rest' u derived one less more stop
    have chains : u.chain Kind.waits ≤ Tree.chainAll Kind.waits us := Tree.chain_le_chainAll one
    refine ha.expression derived (room.imp (fun _ => by omega) (by omega)) ?_
    obtain comma | rfl := stop
    · rw [comma]; rfl
    · exact ends
  obtain ⟨ts', rest', before, other, behind, items⟩ :=
    listUntil_complete rfl rfl (by rcases sign with rfl | rfl <;> rfl)
      (by rcases sign with rfl | rfl <;> decide) (hs .expression) before items behind last
      (by rcases sign with rfl | rfl <;> decide) found
  refine ⟨ts', before, other, ?_⟩
  rw [expressions, check_listUntil]
  have stop : firstKind (x :: rest) ≠ .mark .newline := by
    rcases sign with rfl | rfl <;> simp [last]
  apply Takes.bind items
  apply Takes.bind (.skipNewlines behind stop)
  exact .bind (.expect last (by simp)) .pure

theorem array_complete {o : Token} (hs : again.Sound limit) (ha : again.CompleteUpTo limit most)
    (opening : o.kind = .mark .openBracket) (before : Newlines ts ts₁)
    (elements : Derives limit (.list .expression) c ts₁ ts₂ us)
    (behind : Newlines ts₂ (x :: rest)) (closing : x.kind = .mark .closeBracket)
    (room : Room limit (most + 1) c (o :: ts) rest (1 + Tree.chainAll Kind.waits us)) :
    Takes c (o :: ts) rest (array again) (.node (Label.arrayDecl.token o.location) us) := by
  have space := room.inside before.suffix (suffix_of_cons_suffix behind.suffix)
    (Nat.lt_one_add_iff.2 (Nat.le_refl _))
  obtain ⟨ts', before, other, found⟩ :=
    expressions_complete hs ha before elements behind closing (.inr rfl) space
  exact .bind (.advanceLines (by simp [opening]) before other) (.bind found .pure)

theorem hashElement_complete (ha : again.CompleteUpTo limit most)
    (h : Derives limit .pair c ts rest [u])
    (room : Room limit most c ts rest (u.chain Kind.waits))
    (ends : (firstKind rest).continues = false) : Takes c ts rest (hashElement again) u := by
  cases h with
  | pair key arrow lines value =>
    have hk := key.suffix.length_le
    have hl := lines.suffix.length_le
    have hv := value.suffix.length_le
    simp only [List.length_cons] at hk
    simp only [Tree.chain_waits_label, Tree.chainAll_cons, Tree.chainAll_nil] at room
    have found := ha.expression key
      (room.imp (fun enough => by simp only [List.length_cons] at enough ⊢; omega) (by omega))
      (by rw [firstKind_cons, arrow]; rfl)
    have found' := ha.expression value
      (room.imp (fun enough => by rw [List.length_cons] at enough; omega) (by omega)) ends
    apply Takes.current
    apply Takes.bind found
    apply Takes.bind (.expect arrow (by decide))
    exact .bind (.skipNewlines lines (value.not_starts rfl)) (.bind found' .pure)

theorem hashElement?_stop (closing : firstKind ts = .mark .closeBrace) :
    Takes c ts ts (hashElement? again) none := by
  apply Takes.check
  simp only [closing, decide_true, if_true]
  exact .pure

theorem hashElement?_complete (ha : again.CompleteUpTo limit most)
    (h : Derives limit .pair c ts rest [u])
    (room : Room limit most c ts rest (u.chain Kind.waits))
    (ends : (firstKind rest).continues = false) :
    Takes c ts rest (hashElement? again) (some u) := by
  have some : firstKind ts ≠ .mark .closeBrace := h.not_starts rfl
  apply Takes.check
  simp only [some, decide_false, Bool.false_eq_true, if_false]
  exact .bind (hashElement_complete ha h room ends) .pure

theorem nextHashElement?_stop (other : firstKind ts ≠ .mark .comma) :
    Takes c ts ts (nextHashElement? again) none := by
  apply Takes.check
  simp only [other, decide_false, Bool.false_eq_true, if_false]
  exact .pure

theorem nextHashElement?_comma {o : Option Tree} (comma : x.kind = .mark .comma)
    (lines : Newlines ts ts₁) (other : firstKind ts₁ ≠ .mark .newline)
    (h : Takes c ts₁ rest (hashElement? again) o) :
    Takes c (x :: ts) rest (nextHashElement? again) o := by
  apply Takes.check
  simp only [firstKind_cons, comma, decide_true, if_true]
  exact .bind (.advanceLines (by simp [comma]) lines other) h

/-- The elements of a hash, from behind the line ends before them: the first, if there is one, and
those behind the first. -/
theorem pairs_found (hs : again.Sound limit) (ha : again.CompleteUpTo limit most)
    (h : Derives limit .pairs c ts₁ ts₂ us) (before : Newlines ts ts₁)
    (behind : Newlines ts₂ (x :: rest)) (closing : x.kind = .mark .closeBrace)
    (room : Room limit most c ts₁ ts₂ (Tree.chainAll Kind.waits us)) :
    ∃ ts' rest', Newlines ts ts' ∧ firstKind ts' ≠ .mark .newline ∧ Newlines rest' (x :: rest) ∧
      ((us = [] ∧ Takes c ts' rest' (hashElement? again) none) ∨
        ∃ v vs mid, us = v :: vs ∧ Takes c ts' mid (hashElement? again) (some v) ∧
          Takes c mid rest' (collect (nextHashElement? again)) vs) := by
  have adv := nextHashElement?_advancing hs
  have notComma : ∀ {ts}, Newlines ts (x :: rest) → firstKind ts ≠ .mark .comma := by
    intro ts lines same
    obtain newline | same' := lines.starts
    · simp [same] at newline
    · simp [same, closing] at same'
  generalize hp : Phrase.pairs = p at h
  induction h generalizing ts with
  | noPair =>
    refine ⟨x :: rest, x :: rest, before.trans behind, by simp [closing], .none, .inl ⟨rfl, ?_⟩⟩
    exact hashElement?_stop closing
  | lastPair last =>
    have ends := behind.ends (by rw [firstKind_cons, closing]; rfl)
    have found := hashElement?_complete ha last (room.imp id (by simp)) ends
    refine ⟨_, _, before, last.not_starts rfl, behind, .inr ⟨_, [], _, rfl, found, ?_⟩⟩
    exact .collect_stop adv (nextHashElement?_stop (notComma behind))
  | nextPair first comma lines others _ ih =>
    have hf := first.suffix.length_le
    have hl := lines.suffix.length_le
    have ho := others.suffix.length_le
    simp only [List.length_cons] at hf
    rw [Tree.chainAll_cons] at room
    have found := hashElement?_complete ha first
      (room.imp (fun _ => by rw [List.length_cons]; omega) (by omega))
      (by rw [firstKind_cons, comma]; rfl)
    obtain ⟨ts', rest', lines', other, behind', ⟨rfl, none⟩ | ⟨v, vs, mid, rfl, some, more⟩⟩ :=
      ih lines behind (room.imp (fun _ => by omega) (by omega)) rfl
    · refine ⟨_, rest', before, first.not_starts rfl, behind', .inr ⟨_, _, _, rfl, found, ?_⟩⟩
      exact .collect_stop adv (nextHashElement?_comma comma lines' other none)
    · refine ⟨_, rest', before, first.not_starts rfl, behind', .inr ⟨_, _, _, rfl, found, ?_⟩⟩
      exact .collect_next adv (nextHashElement?_comma comma lines' other some) more
  | _ => cases hp

theorem hash_complete {o : Token} (hs : again.Sound limit) (ha : again.CompleteUpTo limit most)
    (opening : o.kind = .mark .openBrace) (before : Newlines ts ts₁)
    (elements : Derives limit .pairs c ts₁ ts₂ us)
    (behind : Newlines ts₂ (x :: rest)) (closing : x.kind = .mark .closeBrace)
    (room : Room limit (most + 1) c (o :: ts) rest (1 + Tree.chainAll Kind.waits us)) :
    Takes c (o :: ts) rest (hash again) (.node (Label.hashDecl.token o.location) us) := by
  have space := room.inside before.suffix (suffix_of_cons_suffix behind.suffix)
    (Nat.lt_one_add_iff.2 (Nat.le_refl _))
  obtain ⟨ts', rest', before, other, behind, found⟩ :=
    pairs_found hs ha elements before behind closing space
  have all : Takes c ts' rest' (hashElements again) us := by
    obtain ⟨rfl, none⟩ | ⟨v, vs, mid, rfl, some, more⟩ := found
    · exact .bind none .pure
    · exact .bind some (.bind more .pure)
  apply Takes.bind (.advanceLines (by simp [opening]) before other)
  apply Takes.bind all
  apply Takes.bind (.skipNewlines behind (by simp [closing]))
  exact .bind (.expect closing (by decide)) .pure

theorem atom_complete (hs : again.Sound limit) (ha : again.CompleteUpTo limit most)
    (h : Derives limit .atom c ts rest [u])
    (room : Room limit (most + 1) c ts rest (1 + u.chain Kind.waits)) :
    Takes c ts rest (atom limit again) u := by
  cases h with
  | literal literal =>
    apply Takes.current
    simp only [literal]
    exact .bind (.advance (by simp [literal])) .pure
  | array opening before elements behind closing =>
    apply Takes.current
    simp only [opening]
    rw [Tree.chain_waits_label] at room
    exact array_complete hs ha opening before elements behind closing room
  | hash opening before elements behind closing =>
    apply Takes.current
    simp only [opening]
    rw [Tree.chain_waits_label] at room
    exact hash_complete hs ha opening before elements behind closing room
  | group opening before inner behind closing =>
    apply Takes.current
    simp only [opening]
    exact group_complete ha opening before inner behind closing room
  | subroutine start params body =>
    apply Takes.current
    simp only [start]
    rw [Tree.chain_waits_label] at room
    exact subroutineLiteral_complete hs ha start params body
      (room.imp (fun enough => by rw [List.length_cons] at enough; omega) (Nat.le_refl _))

theorem trailer?_stop {base : Tree} (stop : (firstKind ts).opensTrailer = false) :
    Takes c ts ts (trailer? again base) none := by
  apply Takes.of_cons
  rintro t us rfl
  apply Takes.current
  rw [firstKind_cons] at stop
  generalize t.kind = k at stop
  split
  · cases stop
  · cases stop
  · exact .pure

theorem trailer?_subscript {o : Token} {base e : Tree} (ha : again.CompleteUpTo limit most)
    (opening : o.kind = .mark .openBracket) (before : Newlines ts ts₁)
    (index : Derives limit .expression c ts₁ ts₂ [e]) (behind : Newlines ts₂ (x :: rest))
    (closing : x.kind = .mark .closeBracket)
    (room : Room limit most c ts₁ ts₂ (e.chain Kind.waits)) :
    Takes c (o :: ts) rest (trailer? again base)
      (some (.node (Label.subscript.token o.location) [base, e])) := by
  have found := ha.expression index room (behind.ends (by rw [firstKind_cons, closing]; rfl))
  apply Takes.current
  simp only [opening]
  refine .bind ?_ .pure
  apply Takes.bind (.advanceLines (by simp [opening]) before (index.not_starts rfl))
  apply Takes.bind found
  apply Takes.bind (.skipNewlines behind (by simp [closing]))
  exact .bind (.expect closing (by decide)) .pure

theorem trailer?_call {o : Token} {callee : Tree} (hs : again.Sound limit)
    (ha : again.CompleteUpTo limit most) (opening : o.kind = .mark .openParen)
    (before : Newlines ts ts₁) (arguments : Derives limit (.list .expression) c ts₁ ts₂ us)
    (behind : Newlines ts₂ (x :: rest)) (closing : x.kind = .mark .closeParen)
    (room : Room limit most c ts₁ ts₂ (Tree.chainAll Kind.waits us)) :
    Takes c (o :: ts) rest (trailer? again callee)
      (some (.node (Label.call.token o.location) (callee :: us))) := by
  obtain ⟨ts', before, other, found⟩ :=
    expressions_complete hs ha before arguments behind closing (.inl rfl) room
  apply Takes.current
  simp only [opening]
  refine .bind ?_ .pure
  exact .bind (.advanceLines (by simp [opening]) before other) (.bind found .pure)

/-- Reading an atom with trailers goes on behind any of the trailers. -/
theorem trailed_resumes (hs : again.Sound limit) (ha : again.CompleteUpTo limit most)
    (h : Derives limit .trailed c ts rest [u])
    (room : Room limit (most + 1) c ts rest (1 + u.chain Kind.waits)) :
    Resumes c ts rest (trailed limit again) (iterate (trailer? again) u) := by
  have adv := trailer?_advancing hs
  generalize hp : Phrase.trailed = p at h
  generalize hu : [u] = us at h
  induction h generalizing u with
  | untrailed atom =>
    cases hu
    exact .of_first (atom_complete hs ha atom room)
  | subscript base opening before index behind closing ih =>
    cases hu
    have hb := base.length_lt rfl
    have hn := before.suffix.length_le
    have hi := index.suffix.length_le
    have hx := behind.suffix.length_le
    simp only [List.length_cons] at hb hx
    simp only [Tree.chain_waits_label, Tree.chainAll_cons, Tree.chainAll_nil] at room
    have resumed := ih (room.imp (fun _ => by rw [List.length_cons]; omega) (by omega)) rfl rfl
    exact resumed.step adv (trailer?_subscript ha opening before index behind closing
      (room.imp (fun _ => by omega) (by omega)))
  | call callee opening before arguments behind closing ih =>
    cases hu
    have hc := callee.length_lt rfl
    have hn := before.suffix.length_le
    have hi := arguments.suffix.length_le
    have hx := behind.suffix.length_le
    simp only [List.length_cons] at hc hx
    rw [Tree.chain_waits_label, Tree.chainAll_cons] at room
    have resumed := ih (room.imp (fun _ => by rw [List.length_cons]; omega) (by omega)) rfl rfl
    exact resumed.step adv (trailer?_call hs ha opening before arguments behind closing
      (room.imp (fun _ => by omega) (by omega)))
  | _ => cases hp

theorem trailed_complete (hs : again.Sound limit) (ha : again.CompleteUpTo limit most)
    (h : Derives limit .trailed c ts rest [u])
    (room : Room limit (most + 1) c ts rest (1 + u.chain Kind.waits))
    (stop : (firstKind rest).opensTrailer = false) : Takes c ts rest (trailed limit again) u :=
  (trailed_resumes hs ha h room).takes (.iterate_stop (trailer?_advancing hs) (trailer?_stop stop))

theorem prefixed_complete {s : Token} {e : Tree} (ha : again.CompleteUpTo limit most)
    (sign : s.kind.isUnaryOperator = true) (lines : Newlines ts ts₁)
    (inner : Derives limit .operand c ts₁ rest [e])
    (room : Room limit (most + 1) c (s :: ts) rest
      (1 + (Tree.node s.asPrefixOperator [e]).chain Kind.waits))
    (stop : (firstKind rest).opensTrailer = false) :
    Takes c (s :: ts) rest (operand limit again) (.node s.asPrefixOperator [e]) := by
  have present : s.kind ≠ .endOfText := fun ends => by simp [ends, Kind.isUnaryOperator] at sign
  have waits : e.chain Kind.waits < (Tree.node s.asPrefixOperator [e]).chain Kind.waits := by
    rw [Tree.chain_node, Token.waits_asPrefixOperator sign]
    simp
  have space := room.inside lines.suffix (List.suffix_refl _) (Nat.add_lt_add_left waits 1)
  have found := ha .operand inner space (by simp [Goal.endsBefore, stop])
  apply Takes.current
  simp only [sign, if_true]
  exact .bind (.advanceLines present lines (inner.not_starts rfl)) (.bind found .pure)

theorem operand_complete (hs : again.Sound limit) (ha : again.CompleteUpTo limit most)
    (h : Derives limit .operand c ts rest [u])
    (room : Room limit (most + 1) c ts rest (1 + u.chain Kind.waits))
    (stop : (firstKind rest).opensTrailer = false) : Takes c ts rest (operand limit again) u := by
  cases h with
  | negation sign lines inner =>
    have unary := Kind.isUnaryOperator_iff.2 (.inl sign)
    rw [← Token.asPrefixOperator_minus sign] at room
    have taken := prefixed_complete ha unary lines inner room stop
    rwa [Token.asPrefixOperator_minus sign] at taken
  | @signed _ _ _ _ s _ sign lines inner =>
    have unary := Kind.isUnaryOperator_iff.2 (.inr sign)
    have plain : s.kind ≠ .binary .minus := by rcases sign with h | h <;> simp [h]
    have same := Token.asPrefixOperator_of_ne plain
    have taken := prefixed_complete ha unary lines inner (by rwa [same]) stop
    rwa [same] at taken
  | unsigned inner =>
    apply Takes.of_cons
    rintro t us rfl
    have unsigned : t.kind.isUnaryOperator = false := by
      have starts := inner.starts
      simp only [Phrase.startsWith, firstKind_cons] at starts
      generalize t.kind = k at starts
      cases k with
      | literal l => rfl
      | keyword w => rfl
      | mark m => cases m <;> first | rfl | cases starts
      | _ => cases starts
    apply Takes.current
    simp only [unsigned, Bool.false_eq_true, if_false]
    exact trailed_complete hs ha inner room stop

/-- What is left to read of a level behind some of its operands. -/
def climbOn (first : Parse Tree) : (levels least : Nat) → Tree → Parse Tree
  | 0, _, u => pure u
  | levels + 1, least, u => iterate (fold? least (climb first levels)) u

theorem climb_eq (first : Parse Tree) (levels least : Nat) :
    climb first levels least = first >>= climbOn first levels least := by
  cases levels with
  | zero => exact (bind_pure first).symm
  | succ levels => rfl

theorem fold?_stop {least : Nat} {right : Nat → Parse Tree} {left : Tree}
    (loose : (firstKind ts).precedence.rank < least) :
    Takes c ts ts (fold? least right left) none := by
  apply Takes.of_cons
  rintro t us rfl
  apply Takes.current
  rw [if_neg (by rw [firstKind_cons] at loose; omega)]
  exact .pure

theorem fold?_next {least : Nat} {right : Nat → Parse Tree} {left e : Tree} {o : Token}
    {op : BinaryOp} (sign : o.kind = .binary op) (tight : least ≤ op.precedence.rank)
    (lines : Newlines ts ts₁) (other : firstKind ts₁ ≠ .mark .newline)
    (h : Takes c ts₁ rest (right (op.precedence.rank + 1)) e) :
    Takes c (o :: ts) rest (fold? least right left) (some (.node o [left, e])) := by
  apply Takes.current
  simp only [sign, Kind.precedence, tight, if_true]
  exact .bind (.advanceLines (by simp [sign]) lines other) (.bind h .pure)

theorem climbOn_stop {first : Parse Tree} (hf : Yields limit .operand first) {levels least : Nat}
    (hl : 0 < least) (enough : Precedence.unary.rank ≤ levels + least)
    (loose : (firstKind ts).precedence.rank < least) :
    Takes c ts ts (climbOn first levels least u) u := by
  cases levels with
  | zero => exact .pure
  | succ levels =>
    have hright : ∀ k, least ≤ k → k < Precedence.unary.rank →
        YieldsLevel limit (k + 1) (climb first levels (k + 1)) :=
      fun k _ _ => climb_yields hf (by omega) (by omega) (by omega)
    exact .iterate_stop (fold?_advancing hl hright) (fold?_stop loose)

/-- Climbing goes on behind the operands of any level that is no looser, if the operator behind them
is. The left side of a fold is read by the same climb, which then goes on with the operator; the
right side is read by a climb of its own from the next level up. -/
theorem level_resumes (hs : again.Sound limit) (ha : again.CompleteUpTo limit most) {k : Nat}
    (h : Derives limit (.level k) c ts rest [u])
    (room : Room limit (most + 1) c ts rest (1 + u.chain Kind.waits))
    (stop : (firstKind rest).opensTrailer = false) (behind : (firstKind rest).precedence.rank ≤ k)
    {levels least : Nat} (hl : 0 < least) (tight : least ≤ k)
    (enough : Precedence.unary.rank ≤ levels + least) :
    Resumes c ts rest (climb (operand limit again) levels least)
      (climbOn (operand limit again) levels least u) := by
  have hf := operand_yields hs
  generalize hp : Phrase.level k = p at h
  generalize hu : [u] = us at h
  induction h generalizing u k levels least with
  | tightest operand =>
    cases hu
    rw [climb_eq]
    exact .of_first (operand_complete hs ha operand room stop)
  | tighter inner ih =>
    cases hp
    exact ih room stop (by omega) hl (by omega) enough rfl hu
  | @fold c ts ts₁ ts₂ rest k o op l e left sign rank lines right ihl ihr =>
    cases hp
    cases hu
    subst rank
    have bounds := op.rank_bounds
    have hleft := left.length_lt rfl
    have hlines := lines.suffix.length_le
    have hright := right.suffix.length_le
    simp only [List.length_cons] at hleft
    have chains := Tree.chainAll_le_chain Kind.waits o [l, e]
    simp only [Tree.chainAll_cons, Tree.chainAll_nil] at chains
    obtain ⟨levels, rfl⟩ : ∃ m, levels = m + 1 := ⟨levels - 1, by omega⟩
    have before : Resumes c ts (o :: ts₁) _ (climbOn _ (levels + 1) least l) :=
      ihl (room.imp (fun _ => by rw [List.length_cons]; omega) (by omega))
        (by rw [firstKind_cons, sign]; rfl) (by rw [firstKind_cons, sign]; exact Nat.le_refl _) hl
        tight enough rfl rfl
    have operand : Takes c ts₂ rest (climb _ levels (op.precedence.rank + 1)) e :=
      (ihr (room.imp (fun _ => by omega) (by omega)) stop (by omega) (by omega) (Nat.le_refl _)
        (by omega) rfl rfl).takes (climbOn_stop hf (by omega) (by omega) (by omega))
    have hright : ∀ k, least ≤ k → k < Precedence.unary.rank →
        YieldsLevel limit (k + 1) (climb (Grammar.operand limit again) levels (k + 1)) :=
      fun k _ _ => climb_yields hf (by omega) (by omega) (by omega)
    exact before.step (fold?_advancing hl hright)
      (fold?_next sign tight lines (right.not_starts rfl) operand)
  | _ => cases hp

theorem binary_complete (hs : again.Sound limit) (ha : again.CompleteUpTo limit most)
    (h : Derives limit (.level Precedence.range.rank) c ts rest [u])
    (room : Room limit (most + 1) c ts rest (1 + u.chain Kind.waits))
    (stop : (firstKind rest).opensTrailer = false)
    (behind : (firstKind rest).precedence.rank < Precedence.range.rank) :
    Takes c ts rest (binary limit again) u :=
  (level_resumes hs ha h room stop (Nat.le_of_lt behind) (by decide) (Nat.le_refl _)
    (by decide)).takes (climbOn_stop (operand_yields hs) (by decide) (by decide) behind)

theorem assignment_complete (hs : again.Sound limit) (ha : again.CompleteUpTo limit most)
    (h : Derives limit .assignment c ts rest [u])
    (room : Room limit (most + 1) c ts rest (1 + u.chain Kind.waits))
    (ends : (firstKind rest).continues = false) :
    Takes c ts rest (assignment limit again) u := by
  cases h with
  | plain value =>
    obtain ⟨stop, behind, other⟩ := Kind.not_continues ends
    refine .bind (binary_complete hs ha value room stop behind) (.of_cons fun t us ht => ?_)
    subst ht
    rw [firstKind_cons] at other
    apply Takes.current
    simp only [other, Bool.false_eq_true, if_false]
    exact .pure
  | @assign _ _ ts₁ ts₂ _ a op l e target assignable sign lines value =>
    have ht := target.length_lt rfl
    have hl := lines.suffix.length_le
    have hv := value.suffix.length_le
    simp only [List.length_cons] at ht
    have assigns : a.kind.isAssignment = true := Kind.isAssignment_iff.2 ⟨op, sign⟩
    have waits : a.kind.waits = true := by rw [Kind.waits, assigns, Bool.true_or]
    simp only [Tree.chain_node, waits, Bool.toNat_true, Tree.chainAll_cons, Tree.chainAll_nil]
      at room
    have left := binary_complete hs ha target
      (room.imp (fun _ => by rw [List.length_cons]; omega) (by omega))
      (by rw [firstKind_cons, sign]; rfl) (by rw [firstKind_cons, sign]; exact Nat.zero_lt_two)
    have right := ha.assignment value (room.imp (fun _ => by omega) (by omega)) ends
    refine .bind left (.current ?_)
    simp only [assigns, Kind.isAssignable_iff.2 assignable, if_true]
    exact .bind (.advanceLines (by simp [sign]) lines (value.not_starts rfl)) (.bind right .pure)

theorem expression_complete (hs : again.Sound limit) (ha : again.CompleteUpTo limit most)
    (h : Derives limit .expression c ts rest [u])
    (room : Room limit (most + 1) c ts rest (u.chain Kind.waits))
    (ends : (firstKind rest).continues = false) :
    Takes c ts rest (Grammar.expression limit again) u := by
  cases h with
  | expression within inner =>
    exact .nested within (assignment_complete hs ha inner (room.deeper within) ends)

end Grammar
end AresSyntax
