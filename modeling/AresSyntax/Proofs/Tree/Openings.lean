import Mathlib.Tactic.Ring
import AresSyntax.Proofs.Tree.Ledger

/-!
The tokens that open a construct, and the nodes that stand for the constructs.

* `Ledger.exists_place`, `Ledger.exists_signatures`, `Ledger.exists_elements`,
  `Ledger.exists_conditionals`: what is counted;
* `Balances.places`: nodes stand where the tokens that open them do;
* `closesAll`: every bracket is closed by one of its own kind, the last one first;
* `parse_openings`: the tokens of a text and the nodes of its tree.
-/
namespace AresSyntax
open AresSyntax.Tree

namespace Ledger

theorem sum_map_ite {α : Type} (p : α → Prop) [DecidablePred p] (xs : List α) :
    (xs.map fun x => if p x then (1 : Int) else 0).sum = xs.countP p := by
  induction xs with
  | nil => rfl
  | cons x xs ih =>
    rw [List.map_cons, List.sum_cons, ih, List.countP_cons]
    split <;> simp [*]
    omega

/-- Tokens of the kind `k` at the place `x` are charged for, and the nodes of the constructs that
open with them pay. -/
theorem exists_place {k : Kind} {label : Label} (opens : label.opening? = some k) (x : Location) :
    ∃ l : Ledger, (l.charge = fun t => if t.kind = k ∧ t.location = x then 1 else 0) ∧
      l.payment = fun t => if t.kind.opening? = some k ∧ t.location = x then 1 else 0 := by
  have kinds := Label.opening_kinds opens
  refine ⟨
    { charge := fun t => if t.kind = k ∧ t.location = x then 1 else 0
      payment := fun t => if t.kind.opening? = some k ∧ t.location = x then 1 else 0
      signature := 0
      charge_plain := ?plainCharge
      payment_plain := ?plainPayment
      opening := ?opening
      subroutine := ?subroutine
      element := ?element
      clauses := ?clauses }, rfl, rfl⟩
  case plainCharge => grind
  case plainPayment => grind [Kind.opening?_of_isPlain]
  case opening => grind [Label.token, Kind.opening?]
  case subroutine => grind [Label.token, Kind.opening?]
  case element => grind [Label.token, Label.opening?, Kind.opening?]
  case clauses => grind [Label.token, Label.opening?, Kind.opening?]

/-- Tokens before a subroutine are charged for, and its parameters pay. -/
theorem exists_signatures :
    ∃ l : Ledger, (l.charge = fun t => if t.kind = .keyword .defWord then 1 else 0) ∧
      l.payment = fun t => if t.kind = .label .subParams then 1 else 0 := by
  refine ⟨
    { charge := fun t => if t.kind = .keyword .defWord then 1 else 0
      payment := fun t => if t.kind = .label .subParams then 1 else 0
      signature := 1
      charge_plain := ?plainCharge
      payment_plain := ?plainPayment
      opening := ?opening
      subroutine := ?subroutine
      element := ?element
      clauses := ?clauses }, rfl, rfl⟩
  case plainCharge | plainPayment => grind [Kind.isPlain]
  case opening | subroutine => grind [Label.token, Label.opening?]
  case element | clauses => grind [Label.token]

/-- Arrows are charged for, and elements pay. -/
theorem exists_elements :
    ∃ l : Ledger, (l.charge = fun t => if t.kind = .mark .arrow then 1 else 0) ∧
      l.payment = fun t => if t.kind = .label .hashElem then 1 else 0 := by
  have kinds := fun l k => @Label.opening_kinds l k
  refine ⟨
    { charge := fun t => if t.kind = .mark .arrow then 1 else 0
      payment := fun t => if t.kind = .label .hashElem then 1 else 0
      signature := 0
      charge_plain := ?plainCharge
      payment_plain := ?plainPayment
      opening := ?opening
      subroutine := ?subroutine
      element := ?element
      clauses := ?clauses }, rfl, rfl⟩
  case plainCharge | plainPayment => grind [Kind.isPlain]
  case opening | subroutine => grind [Label.token, Label.opening?]
  case element | clauses => grind [Label.token]

/-- The clauses of a conditional pay what its node takes. -/
theorem exists_conditionals :
    ∃ l : Ledger, (l.charge = fun _ => 0) ∧
      l.payment = fun t => (if t.kind = .label .elifClauses then 1 else 0) -
        if t.kind = .keyword .ifWord then 1 else 0 := by
  have kinds := fun l k => @Label.opening_kinds l k
  refine ⟨
    { charge := fun _ => 0
      payment := fun t => (if t.kind = .label .elifClauses then 1 else 0) -
        if t.kind = .keyword .ifWord then 1 else 0
      signature := 0
      charge_plain := ?plainCharge
      payment_plain := ?plainPayment
      opening := ?opening
      subroutine := ?subroutine
      element := ?element
      clauses := ?clauses }, rfl, rfl⟩
  case plainCharge => exact fun _ _ => rfl
  case plainPayment => grind [Kind.isPlain]
  case opening | subroutine => grind [Label.token, Label.opening?]
  case element | clauses => grind [Label.token]

theorem payments_conditionals {l : Ledger}
    (payment : l.payment = fun t => (if t.kind = .label .elifClauses then 1 else 0) -
      if t.kind = .keyword .ifWord then 1 else 0) (ns : List Tree) :
    l.payments ns = ns.countP (·.token.kind = .label .elifClauses) -
      ns.countP (·.token.kind = .keyword .ifWord) := by
  induction ns with
  | nil => rfl
  | cons n ns ih =>
    rw [payments_cons, ih, List.countP_cons, List.countP_cons]
    simp only [payment, decide_eq_true_eq, Nat.cast_add, Nat.cast_ite, Nat.cast_one,
      Nat.cast_zero]
    ring

end Ledger

variable {limit : Option Nat} {p : Phrase} {c : Context} {ts rest : List Token} {us : List Tree}

/-- The places of the tokens of a kind. -/
def tokenPlaces (k : Kind) (ts : List Token) : List Location :=
  (ts.filter (·.kind = k)).map (·.location)

/-- The places of the nodes of some labels. -/
def nodePlaces (ls : List Label) (ns : List Tree) : List Location :=
  (ns.filter fun n => ∃ l ∈ ls, n.kind = .label l).map (·.token.location)

theorem count_tokenPlaces (k : Kind) (x : Location) (ts : List Token) :
    (tokenPlaces k ts).count x = ts.countP fun t => t.kind = k ∧ t.location = x := by
  simp only [tokenPlaces, List.count_eq_countP, List.countP_map, List.countP_filter]
  exact List.countP_congr fun t _ => by simp [and_comm]

theorem count_nodePlaces (ls : List Label) (x : Location) (ns : List Tree) :
    (nodePlaces ls ns).count x =
      ns.countP fun n => (∃ l ∈ ls, n.kind = .label l) ∧ n.token.location = x := by
  simp only [nodePlaces, List.count_eq_countP, List.countP_map, List.countP_filter]
  exact List.countP_congr fun n _ => by simp [and_comm]

theorem Kind.opening?_eq_some {k k' : Kind} :
    k'.opening? = some k ↔ ∃ l : Label, l.opening? = some k ∧ k' = .label l := by
  cases k' with
  | label l => simp [opening?]
  | _ => simp [opening?]

/-- The nodes of the constructs that open with a kind of token stand where such tokens stand, but
for the groups. -/
theorem Balances.places {t : Tree} (h : Balances limit 0 ts [] t.children) :
    ∃ groups, (∀ g ∈ groups, Grouped limit ts (walkAll t.children) g) ∧
      ∀ (k : Kind) (ls : List Label), ls ≠ [] → (∀ l : Label, l ∈ ls ↔ l.opening? = some k) →
        (tokenPlaces k ts).Perm
          (nodePlaces ls (walkAll t.children) ++ tokenPlaces k groups) := by
  obtain ⟨groups, grouped, kept⟩ := h
  refine ⟨groups, grouped, fun k ls some opens => List.perm_iff_count.2 fun x => ?_⟩
  obtain ⟨l, hl⟩ := List.exists_mem_of_ne_nil ls some
  obtain ⟨place, charge, payment⟩ := Ledger.exists_place ((opens l).1 hl) x
  have same := kept place
  simp only [Ledger.charges, Ledger.payments, charge, payment, Ledger.sum_map_ite,
    Kind.opening?_eq_some, ← opens, Pi.zero_apply] at same
  rw [List.count_append, count_tokenPlaces, count_tokenPlaces, count_nodePlaces]
  unfold Tree.kind
  rw [List.countP_nil] at same
  omega

/-- The mark that closes what a mark opens. -/
def Mark.closing? : Mark → Option Mark
  | openParen => some closeParen
  | openBracket => some closeBracket
  | openBrace => some closeBrace
  | _ => none

/-- Holds for the marks that close something. -/
def Mark.isClosing : Mark → Bool
  | closeParen | closeBracket | closeBrace => true
  | _ => false

/-- Holds if the brackets among the tokens close first all that is still `pending`, the last one
first, and each other bracket that opens is closed by one of its own kind. -/
def closesAll : List Mark → List Token → Bool
  | pending, [] => pending.isEmpty
  | pending, t :: ts =>
    match t.kind with
    | .mark m =>
      match m.closing? with
      | some x => closesAll (x :: pending) ts
      | none => if m.isClosing then pending.head? = some m && closesAll pending.tail ts
        else closesAll pending ts
    | _ => closesAll pending ts

section
variable {t x : Token} {m : Mark} {k : Kind}

theorem closesAll_opening (h : t.kind = .mark m) {m' : Mark} (opens : m.closing? = some m')
    (pending : List Mark) (ts : List Token) :
    closesAll pending (t :: ts) = closesAll (m' :: pending) ts := by
  simp only [closesAll, h, opens]

theorem closesAll_closing (h : t.kind = .mark m) (closes : m.isClosing)
    (pending : List Mark) (ts : List Token) :
    closesAll (m :: pending) (t :: ts) = closesAll pending ts := by
  cases m <;> cases closes <;> simp [closesAll, h, Mark.closing?, Mark.isClosing]

/-- Holds for the kinds that are no brackets. -/
def Kind.isNoBracket : Kind → Bool
  | mark m => m.closing?.isNone && !m.isClosing
  | _ => true

theorem closesAll_other (h : t.kind = k) (other : k.isNoBracket) (pending : List Mark)
    (ts : List Token) : closesAll pending (t :: ts) = closesAll pending ts := by
  subst h
  unfold Kind.isNoBracket at other
  rw [closesAll]
  split at other
  · rename_i m kind
    cases m <;> cases other <;> rfl
  · rfl

end

theorem Newlines.closesAll_eq (h : Newlines ts rest) (pending : List Mark) :
    closesAll pending ts = closesAll pending rest := by
  induction h with
  | none => rfl
  | next newline _ ih => rw [closesAll_other newline rfl, ih]

theorem Separator.closesAll_eq (h : Separator ts rest) (pending : List Mark) :
    closesAll pending ts = closesAll pending rest := by
  cases h with
  | semicolon sign others | newline sign others =>
    rw [closesAll_other sign rfl, others.closesAll_eq]

/-- The brackets of a phrase are closed in it. -/
theorem Derives.closesAll_eq (h : Derives limit p c ts rest us) (pending : List Mark) :
    closesAll pending ts = closesAll pending rest := by
  induction h generalizing pending with
  | noStatement | noClause | noOtherwise | noPair | emptyList => rfl
  | lastStatement _ inner | lastItem _ inner | expression _ _ inner | plain _ inner
  | tighter _ inner | tightest _ inner | unsigned _ inner | untrailed _ inner
  | lastPair _ inner | someItems _ inner | value _ inner => exact inner pending
  | nextStatement _ separator _ first others => rw [first, separator.closesAll_eq, others]
  | nextPair _ comma lines _ first others | nextItem _ comma lines _ first others =>
    rw [first, closesAll_other comma rfl, lines.closesAll_eq, others]
  | nextClause start _ _ _ condition body others =>
    rw [closesAll_other start rfl, condition, body, others]
  | otherwise start _ body => rw [closesAll_other start rfl, body]
  | declaration start ident _ _ params body =>
    rw [closesAll_other start rfl, closesAll_other ident rfl, params, body]
  | conditional start _ _ _ _ condition body further last =>
    rw [closesAll_other start rfl, condition, body, further, last]
  | loop start _ _ condition body =>
    obtain start | start := start <;> rw [closesAll_other start rfl, condition, body]
  | iteration start ident inWord _ _ range body =>
    rw [closesAll_other start rfl, closesAll_other ident rfl, closesAll_other inWord rfl, range,
      body]
  | command start _ inner =>
    obtain start | start := start <;> rw [closesAll_other start rfl, inner]
  | leave _ start => rw [closesAll_other start rfl]
  | leaveWith _ start _ inner => rw [closesAll_other start rfl, inner]
  | name ident | literal ident => rw [closesAll_other ident rfl]
  | block before opening lines _ _ closing inner =>
    rw [before.closesAll_eq, closesAll_opening opening rfl, lines.closesAll_eq, inner,
      closesAll_closing closing rfl]
  | parameters opening before _ behind closing inner | array opening before _ behind closing inner
  | hash opening before _ behind closing inner | group opening before _ behind closing inner =>
    rw [closesAll_opening opening rfl, before.closesAll_eq, inner, behind.closesAll_eq,
      closesAll_closing closing rfl]
  | assign _ _ sign lines _ left right | fold _ sign _ lines _ left right
  | pair _ sign lines _ left right =>
    rw [left, closesAll_other sign rfl, lines.closesAll_eq, right]
  | negation sign lines _ inner => rw [closesAll_other sign rfl, lines.closesAll_eq, inner]
  | signed sign lines _ inner =>
    obtain sign | sign := sign <;> rw [closesAll_other sign rfl, lines.closesAll_eq, inner]
  | subscript _ opening before _ behind closing first inner
  | call _ opening before _ behind closing first inner =>
    rw [first, closesAll_opening opening rfl, before.closesAll_eq, inner, behind.closesAll_eq,
      closesAll_closing closing rfl]
  | subroutine start _ _ params body => rw [closesAll_other start rfl, params, body]

theorem DerivesProgram.closesAll {t : Tree} (h : DerivesProgram limit ts t) :
    closesAll [] ts = true := by
  cases h with
  | intro lines inner ending =>
    rw [lines.closesAll_eq, inner.closesAll_eq, closesAll_other ending rfl]
    rfl

/-- The tokens `ts` of a text that open a construct are accounted for by the nodes of its tree. -/
structure Accounted (limit : Option Nat) (ts : List Token) (t : Tree) : Prop where
  brackets : (tokenPlaces (.mark .openBracket) ts).Perm
    (nodePlaces [.arrayDecl, .subscript] t.walk)
  braces : (tokenPlaces (.mark .openBrace) ts).Perm (nodePlaces [.hashDecl, .block] t.walk.tail)
  subroutines : (tokenPlaces (.keyword .defWord) ts).Perm
    (nodePlaces [.subDecl, .subLiteral] t.walk)
  parens : ∃ groups : List Token, (∀ g ∈ groups, Grouped limit ts t.walk g) ∧
    (tokenPlaces (.mark .openParen) ts).Perm
      (nodePlaces [.call, .subParams] t.walk ++ groups.map (·.location))
  distinct : (nodePlaces [.call, .subParams] t.walk).Nodup
  params : (t.findAll (.label .subParams)).length = ts.countP (·.kind = .keyword .defWord)
  elements : (t.findAll (.label .hashElem)).length = ts.countP (·.kind = .mark .arrow)
  clauses : (t.findAll (.label .elifClauses)).length = (t.findAll (.keyword .ifWord)).length
  closed : closesAll [] ts = true

theorem Grouped.tokenPlaces_eq {ns : List Tree} {groups : List Token} {k : Kind}
    (h : ∀ g ∈ groups, Grouped limit ts ns g) (other : k ≠ .mark .openParen) :
    tokenPlaces k groups = [] := by
  rw [tokenPlaces, List.map_eq_nil_iff, List.filter_eq_nil_iff]
  intro g hg
  obtain ⟨opening, _⟩ := h g hg
  simp [opening, other.symm]

theorem Grouped.tokenPlaces_all {ns : List Tree} {groups : List Token}
    (h : ∀ g ∈ groups, Grouped limit ts ns g) :
    tokenPlaces (.mark .openParen) groups = groups.map (·.location) := by
  rw [tokenPlaces, List.filter_eq_self.2]
  intro g hg
  obtain ⟨opening, _⟩ := h g hg
  simp [opening]

theorem length_tokenPlaces (k : Kind) (ts : List Token) :
    (tokenPlaces k ts).length = ts.countP (·.kind = k) := by
  rw [tokenPlaces, List.length_map, List.countP_eq_length_filter]

/-- The constructs of a kind stand where the root does not. -/
theorem nodePlaces_walk {ls : List Label} {t : Tree} {l : Label} (root : t.kind = .label l)
    (other : l ∉ ls) : nodePlaces ls t.walk = nodePlaces ls (walkAll t.children) := by
  obtain ⟨token, children⟩ := t
  have no : ¬ ∃ l ∈ ls, (Tree.node token children).kind = .label l := by
    rw [root]
    rintro ⟨l', hl, same⟩
    exact other (Kind.label.inj same ▸ hl)
  rw [nodePlaces, walk, List.filter_cons_of_neg (by simpa using no)]
  rfl

theorem length_findAll {k : Kind} {t : Tree} (root : t.kind ≠ k) :
    (t.findAll k).length = (walkAll t.children).countP (·.token.kind = k) := by
  obtain ⟨token, children⟩ := t
  rw [findAll, walk, List.filter_cons_of_neg (by simpa using root), List.countP_eq_length_filter]
  rfl

section
variable {t : Tree}

/-- Constructs that open with no parenthesis stand where the tokens do that they open with. -/
theorem Balances.places_of_ne (h : Balances limit 0 ts [] t.children) {k : Kind} {ls : List Label}
    (other : k ≠ .mark .openParen) (nonempty : ls ≠ [])
    (opens : ∀ l : Label, l ∈ ls ↔ l.opening? = some k) :
    (tokenPlaces k ts).Perm (nodePlaces ls (walkAll t.children)) := by
  obtain ⟨groups, grouped, places⟩ := h.places
  have same := places k ls nonempty opens
  rwa [Grouped.tokenPlaces_eq grouped other, List.append_nil] at same

/-- If tokens of one kind are charged for and the nodes of another kind pay, there are as many of
these as of those. -/
theorem Balances.length_findAll_eq (h : Balances limit 0 ts [] t.children) {k k' : Kind}
    (ledger : ∃ l : Ledger, (l.charge = fun t => if t.kind = k then 1 else 0) ∧
      l.payment = fun t => if t.kind = k' then 1 else 0)
    (other : k ≠ .mark .openParen) (root : t.kind ≠ k') :
    (t.findAll k').length = ts.countP (·.kind = k) := by
  obtain ⟨groups, grouped, kept⟩ := h
  obtain ⟨l, charge, payment⟩ := ledger
  have same := kept l
  simp only [Ledger.charges, Ledger.payments, charge, payment, Ledger.sum_map_ite,
    Pi.zero_apply, List.countP_nil] at same
  have none : groups.countP (·.kind = k) = 0 := by
    rw [← length_tokenPlaces, Grouped.tokenPlaces_eq grouped other]
    rfl
  rw [length_findAll root]
  omega

/-- Every `if` has a node for its clauses. -/
theorem Balances.length_findAll_clauses (h : Balances limit 0 ts [] t.children)
    (root : t.kind = .label .block) :
    (t.findAll (.label .elifClauses)).length = (t.findAll (.keyword .ifWord)).length := by
  obtain ⟨groups, -, kept⟩ := h
  obtain ⟨conditionals, charge, payment⟩ := Ledger.exists_conditionals
  have same := kept conditionals
  have free : ∀ us : List Token, conditionals.charges us = 0 := by
    intro us
    simp [Ledger.charges, charge]
  rw [free, free, free, Ledger.payments_conditionals payment, Pi.zero_apply] at same
  rw [length_findAll (by rw [root]; decide), length_findAll (by rw [root]; decide)]
  omega

theorem DerivesProgram.accounted (h : DerivesProgram limit ts t)
    (increasing : ts.Pairwise fun t u => t.location.offset < u.location.offset) :
    Accounted limit ts t := by
  have root : t.kind = .label .block := by
    cases h
    rfl
  have nodes : walkAll t.children ⊆ t.walk := by
    obtain ⟨token, children⟩ := t
    exact List.subset_cons_self _ _
  have rest : t.walk.tail = walkAll t.children := by
    obtain ⟨token, children⟩ := t
    rfl
  obtain ⟨groups, grouped, places⟩ := h.balances.places
  have opened := places (.mark .openParen) [.call, .subParams] nofun
    fun l => by cases l <;> decide
  rw [Grouped.tokenPlaces_all grouped, ← nodePlaces_walk root (by decide)] at opened
  have distinct : (tokenPlaces (.mark .openParen) ts).Nodup := by
    refine List.Pairwise.map _ ?_ (increasing.filter _)
    exact fun t u before same => Int.ne_of_lt before (same ▸ rfl)
  constructor
  case brackets =>
    rw [nodePlaces_walk root (by decide)]
    exact h.balances.places_of_ne (by decide) nofun fun l => by cases l <;> decide
  case braces =>
    rw [rest]
    exact h.balances.places_of_ne (by decide) nofun fun l => by cases l <;> decide
  case subroutines =>
    rw [nodePlaces_walk root (by decide)]
    exact h.balances.places_of_ne (by decide) nofun fun l => by cases l <;> decide
  case parens =>
    exact ⟨groups, fun g hg => (grouped g hg).part (List.suffix_refl _) nodes, opened⟩
  case distinct =>
    exact (List.nodup_append.1 (opened.nodup_iff.1 distinct)).1
  case params =>
    exact h.balances.length_findAll_eq Ledger.exists_signatures (by decide) (by rw [root]; decide)
  case elements =>
    exact h.balances.length_findAll_eq Ledger.exists_elements (by decide) (by rw [root]; decide)
  case clauses => exact h.balances.length_findAll_clauses root
  case closed => exact h.closesAll

end

/-- In a text that is parsed to a tree, the tokens that open a construct and the nodes of the
constructs stand for each other, and the brackets are well matched. -/
theorem parse_openings {limits : Limits} {text file : String} {t : Tree}
    (h : parse limits text file = .ok t) :
    ∃ ts, tokenize text file = .ok ts ∧ Accounted limits.nesting ts t := by
  obtain ⟨ts, read, derived⟩ := parse_derives h
  exact ⟨ts, read, derived.accounted (tokenize_increasing read)⟩

/-- Parentheses of parameters, of a group and of a call. -/
theorem parse_openings_parens : ∃ t ts, parse .standard "def() { [(a)()] }" "f.ares" = .ok t ∧
    t.render = "(BLOCK (SUB_LITERAL SUB_PARAMS (BLOCK (ARRAY_DECL (CALL a)))))" ∧
    tokenize "def() { [(a)()] }" "f.ares" = .ok ts ∧ Accounted (some 256) ts t := by
  have shown : (parse .standard "def() { [(a)()] }" "f.ares").toOption.map Tree.render =
      some "(BLOCK (SUB_LITERAL SUB_PARAMS (BLOCK (ARRAY_DECL (CALL a)))))" := by
    decide +kernel
  obtain ⟨t, found, render⟩ := exists_tree_of_render shown
  obtain ⟨ts, read, accounted⟩ := parse_openings found
  exact ⟨t, ts, found, render, read, accounted⟩

end AresSyntax
