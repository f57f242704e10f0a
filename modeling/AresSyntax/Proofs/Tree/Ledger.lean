import Mathlib.Algebra.Group.Pi.Basic
import Mathlib.Algebra.Ring.Int.Defs
import AresSyntax.Proofs.Grammar.Exactness
import AresSyntax.Proofs.Tree.Paths

/-!
What the tokens of a text cost, and the nodes of its tree that pay for them.

* `Label.opening?`: the kind of token that a construct opens with;
* `Ledger`: charges for tokens that the nodes of the constructs pay;
* `Grouped`: a parenthesis that only groups;
* `Derives.balances`: what is charged for the tokens of a phrase is paid by its trees and groups.
-/
namespace AresSyntax
open AresSyntax.Tree

/-- The kind of token that a construct opens with, and stands at. -/
def Label.opening? : Label → Option Kind
  | arrayDecl | subscript => some (.mark .openBracket)
  | block | hashDecl => some (.mark .openBrace)
  | call | subParams => some (.mark .openParen)
  | subDecl | subLiteral => some (.keyword .defWord)
  | hashElem | elifClauses => none

/-- The kind of token that a node's construct opens with. -/
def Kind.opening? : Kind → Option Kind
  | label l => l.opening?
  | _ => none

/-- Holds for the kinds that neither open a construct nor label one. -/
def Kind.isPlain : Kind → Bool
  | mark .openBracket | mark .openBrace | mark .openParen | mark .arrow
  | keyword .defWord | keyword .ifWord | label _ => false
  | _ => true

theorem Label.opening_kinds {l : Label} {k : Kind} (h : l.opening? = some k) :
    k.isPlain = false ∧ k ≠ .mark .arrow ∧ k ≠ .keyword .ifWord := by
  cases l <;> cases h <;> decide

theorem Kind.opening?_of_isPlain {k : Kind} (h : k.isPlain) : k.opening? = none := by
  cases k with
  | label l => cases h
  | _ => rfl

/-- Charges for tokens and the payments of nodes. Each node pays for the token that its construct
opens with, parameters pay the signature of their subroutine besides, and an element or the
clauses of a conditional pay for an arrow or an `if`. -/
structure Ledger where
  charge : Token → Int
  payment : Token → Int
  signature : Int
  charge_plain : ∀ t, t.kind.isPlain → charge t = 0
  payment_plain : ∀ t, t.kind.isPlain → payment t = 0
  opening : ∀ (l : Label) (t : Token), l.opening? = some t.kind → t.kind ≠ .keyword .defWord →
    payment (l.token t.location) = charge t + if l = .subParams then signature else 0
  subroutine : ∀ (l : Label) (t : Token), l.opening? = some t.kind → t.kind = .keyword .defWord →
    payment (l.token t.location) + signature = charge t
  element : ∀ t location, t.kind = .mark .arrow →
    payment (Label.hashElem.token location) = charge t
  clauses : ∀ t location, t.kind = .keyword .ifWord →
    payment t + payment (Label.elifClauses.token location) = charge t

namespace Ledger

/-- The charges for some tokens. -/
def charges (l : Ledger) (ts : List Token) : Int := (ts.map l.charge).sum

/-- The payments of some nodes. -/
def payments (l : Ledger) (ns : List Tree) : Int := (ns.map (l.payment ·.token)).sum

variable (l : Ledger)

@[simp] theorem charges_nil : l.charges [] = 0 := rfl

@[simp] theorem charges_cons (t : Token) (ts : List Token) :
    l.charges (t :: ts) = l.charge t + l.charges ts := rfl

@[simp] theorem charges_append (ts us : List Token) :
    l.charges (ts ++ us) = l.charges ts + l.charges us := by
  simp [charges]

@[simp] theorem payments_nil : l.payments [] = 0 := rfl

@[simp] theorem payments_cons (n : Tree) (ns : List Tree) :
    l.payments (n :: ns) = l.payment n.token + l.payments ns := rfl

@[simp] theorem payments_append (ns ms : List Tree) :
    l.payments (ns ++ ms) = l.payments ns + l.payments ms := by
  simp [payments]

/-- A token of a plain kind is free. -/
theorem charge_of_kind {t : Token} {k : Kind} (h : t.kind = k) (plain : k.isPlain) :
    l.charge t = 0 := l.charge_plain t (h ▸ plain)

theorem payment_of_kind {t : Token} {k : Kind} (h : t.kind = k) (plain : k.isPlain) :
    l.payment t = 0 := l.payment_plain t (h ▸ plain)

/-- The label of a construct pays for the token that it opens with. -/
theorem payment_of_opening {t : Token} {k : Kind} (label : Label) (h : t.kind = k)
    (opens : label.opening? = some k) (other : k ≠ .keyword .defWord := by decide) :
    l.payment (label.token t.location) =
      l.charge t + if label = .subParams then l.signature else 0 := by
  subst h
  exact l.opening label t opens other

theorem payment_of_subroutine {t : Token} (label : Label) (h : t.kind = .keyword .defWord)
    (opens : label.opening? = some (.keyword .defWord)) :
    l.payment (label.token t.location) + l.signature = l.charge t :=
  l.subroutine label t (h ▸ opens) h

end Ledger

variable {limit : Option Nat} {p : Phrase} {c : Context} {ts ts' rest rest' : List Token}
  {us : List Tree} {owed owed' : Ledger → Int}

theorem Newlines.charges_eq (h : Newlines ts rest) (l : Ledger) :
    l.charges ts = l.charges rest := by
  induction h with
  | none => rfl
  | next newline _ ih => simp [l.charge_of_kind newline rfl, ih]

theorem Separator.charges_eq (h : Separator ts rest) (l : Ledger) :
    l.charges ts = l.charges rest := by
  cases h with
  | semicolon sign others => simp [l.charge_of_kind sign rfl, others.charges_eq l]
  | newline sign others => simp [l.charge_of_kind sign rfl, others.charges_eq l]

/-- Holds for a parenthesis among the tokens `ts` that only groups an expression: the expression's
node is among `ns`, and no node stands for the parenthesis. -/
def Grouped (limit : Option Nat) (ts : List Token) (ns : List Tree) (g : Token) : Prop :=
  g.kind = .mark .openParen ∧ ∃ c more rest e, g :: more <:+ ts ∧
    Derives limit .atom c (g :: more) rest [e] ∧ e ∈ ns

theorem Grouped.part {g : Token} {ns ns' : List Tree} (h : Grouped limit ts ns g)
    (tokens : ts <:+ ts') (nodes : ns ⊆ ns') : Grouped limit ts' ns' g := by
  obtain ⟨opening, c, more, rest, e, behind, derived, node⟩ := h
  exact ⟨opening, c, more, rest, e, behind.trans tokens, derived, nodes node⟩

/-- Holds if what is charged for the tokens before `rest` is, but for what is owed, what the trees
pay, with groups that pay for themselves. -/
def Balances (limit : Option Nat) (owed : Ledger → Int) (ts rest : List Token)
    (us : List Tree) : Prop :=
  ∃ groups, (∀ g ∈ groups, Grouped limit ts (walkAll us) g) ∧ ∀ l : Ledger,
    owed l + l.charges ts = l.payments (walkAll us) + l.charges groups + l.charges rest

namespace Balances

theorem nothing {rest : List Token} : Balances limit 0 rest rest [] :=
  ⟨[], fun _ none => (List.not_mem_nil none).elim, fun l => by simp [walkAll]⟩

/-- Further tokens around a phrase pay for themselves. -/
theorem around (h : Balances limit owed ts rest us) (tokens : ts <:+ ts')
    (even : ∀ l : Ledger, owed' l + l.charges ts' + l.charges rest =
      owed l + l.charges ts + l.charges rest') : Balances limit owed' ts' rest' us := by
  obtain ⟨groups, grouped, kept⟩ := h
  refine ⟨groups, fun g hg => (grouped g hg).part tokens (List.Subset.refl _), fun l => ?_⟩
  have before := kept l
  have now := even l
  omega

/-- A node pays for the further tokens around its children. -/
theorem node (h : Balances limit owed ts rest us) (w : Token) (tokens : ts <:+ ts')
    (even : ∀ l : Ledger, owed' l + l.charges ts' + l.charges rest =
      l.payment w + owed l + l.charges ts + l.charges rest') :
    Balances limit owed' ts' rest' [.node w us] := by
  obtain ⟨groups, grouped, kept⟩ := h
  refine ⟨groups, fun g hg => (grouped g hg).part tokens ?_, fun l => ?_⟩
  · intro n hn
    simp [walkAll, walk, hn]
  · have before := kept l
    have now := even l
    simp only [walkAll, walk, List.append_nil, Ledger.payments_cons, token]
    omega

/-- One phrase stands behind another. The tokens between them pay for themselves, or are owed. -/
theorem append {owed₁ owed₂ : Ledger → Int} {ts₁ ts₂ : List Token} {us₁ us₂ : List Tree}
    (first : Balances limit owed₁ ts ts₁ us₁) (second : Balances limit owed₂ ts₂ rest us₂)
    (tokens : ts₂ <:+ ts) (even : ∀ l : Ledger, owed l + l.charges ts₁ =
      owed₁ l + owed₂ l + l.charges ts₂) : Balances limit owed ts rest (us₁ ++ us₂) := by
  obtain ⟨groups, grouped, kept⟩ := first
  obtain ⟨groups', grouped', kept'⟩ := second
  have nodes : walkAll (us₁ ++ us₂) = walkAll us₁ ++ walkAll us₂ := walkAll_append us₁ us₂
  refine ⟨groups ++ groups', ?_, fun l => ?_⟩
  · intro g hg
    obtain hg | hg := List.mem_append.1 hg
    · exact (grouped g hg).part (List.suffix_refl _) (nodes ▸ List.subset_append_left _ _)
    · exact (grouped' g hg).part tokens (nodes ▸ List.subset_append_right _ _)
  · have before := kept l
    have behind := kept' l
    have between := even l
    simp only [nodes, Ledger.payments_append, Ledger.charges_append]
    omega

/-- One phrase stands behind another, with nothing between them. -/
theorem next {owed₁ owed₂ : Ledger → Int} {ts₁ : List Token} {us₁ us₂ : List Tree}
    (first : Balances limit owed₁ ts ts₁ us₁) (second : Balances limit owed₂ ts₁ rest us₂)
    (tokens : ts₁ <:+ ts) : Balances limit (owed₁ + owed₂) ts rest (us₁ ++ us₂) :=
  first.append second tokens fun _ => rfl

/-- A leaf is for free. -/
theorem leaf {n : Token} {k : Literal} (ident : n.kind = .literal k)
    (h : Balances limit owed ts rest us) : Balances limit owed (n :: ts) rest (.leaf n :: us) := by
  have alone : Balances limit 0 (n :: ts) ts [.leaf n] :=
    nothing.node n List.nil_suffix fun l => by
      simp [l.charge_of_kind ident rfl, l.payment_of_kind ident rfl]
  rw [← zero_add owed]
  exact alone.next h (List.suffix_cons _ _)

end Balances

/-- What the trees of a phrase do not pay for themselves. -/
def Phrase.due (p : Phrase) (n : Nat) (l : Ledger) : Int :=
  match p with
  | parameters => n * l.signature
  | list p | items p => p.due n l
  | _ => 0

theorem Phrase.due_add (p : Phrase) (n m : Nat) : p.due (n + m) = p.due n + p.due m := by
  funext l
  induction p with
  | parameters => simp [due, Int.add_mul]
  | list p ih | items p ih => exact ih
  | _ => rfl

theorem Phrase.due_zero (p : Phrase) : p.due 0 = 0 := by
  funext l
  induction p with
  | parameters => simp [due]
  | list p ih | items p ih => exact ih
  | _ => rfl

/-- What is charged for the tokens of a phrase is what its nodes pay and what its groups cost. The
clauses of a conditional stand at no token of their own: its `if` pays for them. -/
theorem Derives.balances (h : Derives limit p c ts rest us) :
    Balances limit (p.due us.length) ts rest us := by
  induction h with
  | noStatement | noClause | noOtherwise | noPair => exact .nothing
  | emptyList => exact Phrase.due_zero _ ▸ .nothing
  | lastStatement _ inner | lastItem _ inner | expression _ _ inner | plain _ inner
  | tighter _ inner | tightest _ inner | unsigned _ inner | untrailed _ inner
  | lastPair _ inner | someItems _ inner | value _ inner => exact inner
  | nextStatement first separator _ ih₁ ih₂ =>
    exact ih₁.append ih₂ (separator.suffix.trans first.suffix) fun l => by
      simp [Phrase.due, separator.charges_eq]
  | nextPair first comma lines _ ih₁ ih₂ =>
    exact ih₁.append ih₂ (lines.suffix.trans (suffix_of_cons_suffix first.suffix)) fun l => by
      simp [Phrase.due, l.charge_of_kind comma rfl, lines.charges_eq]
  | nextItem first comma lines _ ih₁ ih₂ =>
    refine ih₁.append ih₂ (lines.suffix.trans (suffix_of_cons_suffix first.suffix)) fun l => ?_
    rw [List.length_cons, Nat.add_comm, Phrase.due_add]
    simp [Phrase.due, l.charge_of_kind comma rfl, lines.charges_eq]
  | nextClause start condition body _ ih₁ ih₂ ih₃ =>
    have clause := ih₁.next ih₂ condition.suffix
    refine (clause.next ih₃ (body.suffix.trans condition.suffix)).around
      (List.suffix_cons _ _) fun l => ?_
    simp [Phrase.due, l.charge_of_kind start rfl]
  | otherwise start _ ih =>
    exact ih.around (List.suffix_cons _ _) fun l => by
      simp [Phrase.due, l.charge_of_kind start rfl]
  | declaration start ident params _ ih₁ ih₂ =>
    refine ((ih₁.next ih₂ params.suffix).leaf ident).node _ (List.suffix_cons _ _) fun l => ?_
    have paid := l.payment_of_subroutine .subDecl start rfl
    simp [Phrase.due, l.charge_of_kind ident rfl]
    omega
  | @conditional _ _ _ _ ts₃ _ w x _ _ _ _ start condition body further _ ih₁ ih₂ ih₃ ih₄ =>
    have clauses : Balances limit (fun l => l.payment (Label.elifClauses.token x.location)) _ ts₃
        [_] := ih₃.node (Label.elifClauses.token x.location) (List.suffix_refl _) fun l => by
      simp [Phrase.due]
    have behind := ih₂.next (clauses.next ih₄ further.suffix) body.suffix
    refine (ih₁.next behind condition.suffix).node w (List.suffix_cons _ _) fun l => ?_
    have paid := l.clauses w x.location start
    simp [Phrase.due]
    omega
  | loop start condition _ ih₁ ih₂ =>
    refine (ih₁.next ih₂ condition.suffix).node _ (List.suffix_cons _ _) fun l => ?_
    obtain start | start := start <;>
      simp [Phrase.due, l.charge_of_kind start rfl, l.payment_of_kind start rfl]
  | @iteration _ ts _ rest w n i _ _ start ident inWord range _ ih₁ ih₂ =>
    have headed : Balances limit 0 (n :: i :: ts) rest _ :=
      ((ih₁.next ih₂ range.suffix).around (List.suffix_cons i ts) fun l => by
        simp [Phrase.due, l.charge_of_kind inWord rfl]).leaf ident
    exact headed.node w (List.suffix_cons _ _) fun l => by
      simp [Phrase.due, l.charge_of_kind start rfl, l.payment_of_kind start rfl]
  | command start _ ih =>
    refine ih.node _ (List.suffix_cons _ _) fun l => ?_
    obtain start | start := start <;>
      simp [Phrase.due, l.charge_of_kind start rfl, l.payment_of_kind start rfl]
  | leave _ start =>
    exact Balances.nothing.node _ (List.suffix_cons _ _) fun l => by
      simp [Phrase.due, l.charge_of_kind start rfl, l.payment_of_kind start rfl]
  | leaveWith _ start _ ih =>
    exact ih.node _ (List.suffix_cons _ _) fun l => by
      simp [Phrase.due, l.charge_of_kind start rfl, l.payment_of_kind start rfl]
  | name ident | literal ident => exact Balances.nothing.leaf ident
  | block before opening lines _ _ closing ih =>
    refine ih.node _ (lines.suffix.trans (suffix_of_cons_suffix before.suffix)) fun l => ?_
    simp [Phrase.due, before.charges_eq, lines.charges_eq, l.charge_of_kind closing rfl,
      l.payment_of_opening .block opening rfl]
  | parameters opening before _ behind closing ih =>
    refine ih.node _ (before.suffix.trans (List.suffix_cons _ _)) fun l => ?_
    simp [Phrase.due, before.charges_eq, behind.charges_eq, l.charge_of_kind closing rfl,
      l.payment_of_opening .subParams opening rfl]
    omega
  | assign target _ sign lines _ ih₁ ih₂ | fold target sign _ lines _ ih₁ ih₂ =>
    have operands : Balances limit 0 _ _ _ := ih₁.append ih₂
      (lines.suffix.trans (suffix_of_cons_suffix target.suffix)) fun l => by
        simp [Phrase.due, l.charge_of_kind sign rfl, lines.charges_eq]
    exact operands.node _ (List.suffix_refl _) fun l => by
      simp [Phrase.due, l.payment_of_kind sign rfl]
  | negation sign lines _ ih =>
    refine ih.node _ (lines.suffix.trans (List.suffix_cons _ _)) fun l => ?_
    rw [l.payment_plain _ rfl]
    simp [Phrase.due, l.charge_of_kind sign rfl, lines.charges_eq]
  | signed sign lines _ ih =>
    refine ih.node _ (lines.suffix.trans (List.suffix_cons _ _)) fun l => ?_
    obtain sign | sign := sign <;>
      simp [Phrase.due, l.charge_of_kind sign rfl, l.payment_of_kind sign rfl, lines.charges_eq]
  | @subscript _ _ _ _ _ _ o _ _ _ base opening before _ behind closing ih₁ ih₂ =>
    have operands : Balances limit (fun l => - l.charge o) _ _ _ := ih₁.append ih₂
      (before.suffix.trans (suffix_of_cons_suffix base.suffix)) fun l => by
        simp [Phrase.due, before.charges_eq]
    refine operands.node _ (List.suffix_refl _) fun l => ?_
    simp [Phrase.due, behind.charges_eq, l.charge_of_kind closing rfl,
      l.payment_of_opening .subscript opening rfl]
  | @call _ _ _ _ _ _ o _ _ _ callee opening before _ behind closing ih₁ ih₂ =>
    have operands : Balances limit (fun l => - l.charge o) _ _ _ := ih₁.append ih₂
      (before.suffix.trans (suffix_of_cons_suffix callee.suffix)) fun l => by
        simp [Phrase.due, before.charges_eq]
    refine operands.node _ (List.suffix_refl _) fun l => ?_
    simp [Phrase.due, behind.charges_eq, l.charge_of_kind closing rfl,
      l.payment_of_opening .call opening rfl]
  | array opening before _ behind closing ih =>
    refine ih.node _ (before.suffix.trans (List.suffix_cons _ _)) fun l => ?_
    simp [Phrase.due, before.charges_eq, behind.charges_eq, l.charge_of_kind closing rfl,
      l.payment_of_opening .arrayDecl opening rfl]
  | hash opening before _ behind closing ih =>
    refine ih.node _ (before.suffix.trans (List.suffix_cons _ _)) fun l => ?_
    simp [Phrase.due, before.charges_eq, behind.charges_eq, l.charge_of_kind closing rfl,
      l.payment_of_opening .hashDecl opening rfl]
  | @group c _ _ _ rest o _ e opening before inner behind closing ih =>
    obtain ⟨groups, grouped, kept⟩ := ih
    have root : e ∈ walkAll [e] := mem_walkAll.2 ⟨e, .head _, mem_walk.2 ⟨_, .root⟩⟩
    have grouping : Grouped limit _ (walkAll [e]) o := ⟨opening, c, _, rest, e,
      List.suffix_refl _, .group opening before inner behind closing, root⟩
    have others := before.suffix.trans (List.suffix_cons o _)
    refine ⟨o :: groups, List.forall_mem_cons.2 ⟨grouping, fun g hg =>
      (grouped g hg).part others (List.Subset.refl _)⟩, fun l => ?_⟩
    have within := kept l
    simp only [Phrase.due, before.charges_eq, behind.charges_eq, l.charge_of_kind closing rfl,
      Ledger.charges_cons] at within ⊢
    omega
  | subroutine start params _ ih₁ ih₂ =>
    refine (ih₁.next ih₂ params.suffix).node _ (List.suffix_cons _ _) fun l => ?_
    have paid := l.payment_of_subroutine .subLiteral start rfl
    simp [Phrase.due]
    omega
  | @pair _ _ _ _ _ x a _ _ key arrow lines _ ih₁ ih₂ =>
    have operands : Balances limit (fun l => - l.charge a) _ _ _ := ih₁.append ih₂
      (lines.suffix.trans (suffix_of_cons_suffix key.suffix)) fun l => by
        simp [Phrase.due, lines.charges_eq]
    refine operands.node _ (List.suffix_refl _) fun l => ?_
    simp [Phrase.due, l.element a x.location arrow]

/-- The node of a whole text pays nothing. -/
theorem DerivesProgram.balances {t : Tree} (h : DerivesProgram limit ts t) :
    Balances limit 0 ts [] t.children := by
  cases h with
  | intro lines inner ending =>
    exact inner.balances.around lines.suffix fun l => by
      simp [Phrase.due, lines.charges_eq, l.charge_of_kind ending rfl]

end AresSyntax
