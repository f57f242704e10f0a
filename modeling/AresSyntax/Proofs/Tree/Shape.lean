import AresSyntax.Proofs.Grammar.Exactness
import AresSyntax.Proofs.Tree.Paths

/-!
The shape of the trees that texts are parsed to. The kind of a node alone says which children it
has.

* `Kind.Shape`: the children that a node of a kind has;
* `Tree.Proper`: every node has its shape, and returns stand in a subroutine;
* `Derives.accepts`, `Derives.proper`: the trees of a phrase;
* `parse_wellFormed`: the tree of a text.
-/
namespace AresSyntax

namespace Kind

/-- The kinds at the root of an expression. -/
def isExpression : Kind → Bool
  | literal _ | binary _ | assign _ | negate | mark .bang | mark .tilde => true
  | label .subscript | label .call | label .arrayDecl | label .hashDecl | label .subLiteral => true
  | _ => false

/-- The kinds at the root of a statement that is no expression. -/
def isStatementOnly : Kind → Bool
  | label .subDecl | keyword .ifWord | keyword .whileWord | keyword .untilWord | keyword .forWord
  | keyword .importWord | keyword .debugWord | keyword .returnWord => true
  | _ => false

/-- The kinds that a return has to stand below. -/
def opensSubroutine : Kind → Bool
  | label .subDecl | label .subLiteral => true
  | _ => false

/-- An expression and a block in turn. -/
def Clauses : List Tree → Prop
  | [] => True
  | e :: b :: cs => e.kind.isExpression ∧ b.kind = .label .block ∧ Clauses cs
  | _ => False

/-- The children of a node of a kind. The kinds that are not listed are those of no node. -/
def Shape : Kind → List Tree → Prop
  | literal _, cs => cs = []
  | binary _, [l, e] => l.kind.isExpression ∧ e.kind.isExpression
  | assign _, [l, e] =>
    (l.kind = .literal .ident ∨ l.kind = .label .subscript) ∧ e.kind.isExpression
  | negate, [e] | mark .bang, [e] | mark .tilde, [e] => e.kind.isExpression
  | label .subscript, [l, e] => l.kind.isExpression ∧ e.kind.isExpression
  | label .call, l :: es => l.kind.isExpression ∧ ∀ e ∈ es, e.kind.isExpression
  | label .arrayDecl, es => ∀ e ∈ es, e.kind.isExpression
  | label .hashDecl, cs => ∀ c ∈ cs, c.kind = .label .hashElem
  | label .hashElem, [k, v] => k.kind.isExpression ∧ v.kind.isExpression
  | label .subLiteral, [ps, b] => ps.kind = .label .subParams ∧ b.kind = .label .block
  | label .subDecl, [n, ps, b] => n.kind = .literal .ident ∧ n.children = [] ∧
    ps.kind = .label .subParams ∧ b.kind = .label .block
  | label .subParams, ns => ∀ n ∈ ns, n.kind = .literal .ident ∧ n.children = []
  | label .block, cs => ∀ c ∈ cs, c.kind.isStatementOnly ∨ c.kind.isExpression
  | label .elifClauses, cs => Clauses cs
  | keyword .ifWord, e :: b :: f :: os => e.kind.isExpression ∧ b.kind = .label .block ∧
    f.kind = .label .elifClauses ∧ (os = [] ∨ ∃ o, os = [o] ∧ o.kind = .label .block)
  | keyword .whileWord, [e, b] | keyword .untilWord, [e, b] =>
    e.kind.isExpression ∧ b.kind = .label .block
  | keyword .forWord, [n, e, b] => n.kind = .literal .ident ∧ n.children = [] ∧
    e.kind.isExpression ∧ b.kind = .label .block
  | keyword .importWord, [e] | keyword .debugWord, [e] => e.kind.isExpression
  | keyword .returnWord, es => es = [] ∨ ∃ e, es = [e] ∧ e.kind.isExpression
  | _, _ => False

theorem Clauses.mem {cs : List Tree} (h : Clauses cs) {c : Tree} (hc : c ∈ cs) :
    c.kind.isExpression ∨ c.kind = .label .block := by
  fun_induction Clauses cs with
  | case1 => cases hc
  | case2 e b cs ih =>
    obtain ⟨he, hb, h⟩ := h
    rcases List.mem_cons.1 hc with rfl | hc
    · exact .inl he
    · rcases List.mem_cons.1 hc with rfl | hc
      · exact .inr hb
      · exact ih h hc
  | case3 => exact h.elim

theorem not_isStatementOnly {k : Kind} (h : k.isExpression) : k.isStatementOnly = false := by
  unfold isExpression at h
  split at h <;> first | rfl | cases h

/-- Only blocks have statements as children. -/
theorem Shape.block_of_statement {k : Kind} {cs : List Tree} (h : k.Shape cs) {c : Tree}
    (hc : c ∈ cs) (statement : c.kind.isStatementOnly) : k = .label .block := by
  unfold Shape at h
  split at h <;> grind [isStatementOnly, → Clauses.mem, → not_isStatementOnly]

end Kind

/-- The roots of the trees that a phrase has. -/
def Phrase.Accepts (u : Tree) : Phrase → Prop
  | statements | statement => u.kind.isStatementOnly ∨ u.kind.isExpression
  | block | otherwise => u.kind = .label .block
  | clauses => u.kind.isExpression ∨ u.kind = .label .block
  | parameters => u.kind = .label .subParams
  | name => u.kind = .literal .ident ∧ u.children = []
  | pairs | pair => u.kind = .label .hashElem
  | list p | items p => p.Accepts u
  | _ => u.kind.isExpression

variable {limit : Option Nat} {p : Phrase} {c : Context} {ts rest : List Token} {us : List Tree}

theorem Derives.accepts (h : Derives limit p c ts rest us) : ∀ u ∈ us, p.Accepts u := by
  induction h with
  | noStatement | noClause | noOtherwise | noPair | emptyList => exact fun u hu => nomatch hu
  | nextStatement _ _ _ first others | nextPair _ _ _ _ first others
  | nextItem _ _ _ _ first others =>
    exact List.forall_mem_cons.2 ⟨first _ (.head _), others⟩
  | nextClause _ _ _ _ condition body others =>
    exact List.forall_mem_cons.2 ⟨.inl (condition _ (.head _)),
      List.forall_mem_cons.2 ⟨.inr (body _ (.head _)), others⟩⟩
  | value _ value => exact List.forall_mem_singleton.2 (.inr (value _ (.head _)))
  | lastStatement _ inner | lastItem _ inner | expression _ _ inner | plain _ inner
  | tighter _ inner | tightest _ inner | unsigned _ inner | untrailed _ inner
  | group _ _ _ _ _ inner | lastPair _ inner | someItems _ inner
  | otherwise _ _ inner => exact inner
  | declaration => exact List.forall_mem_singleton.2 (.inl rfl)
  | conditional start | iteration start | leave _ start | leaveWith _ start =>
    exact List.forall_mem_singleton.2 (.inl (congrArg Kind.isStatementOnly start))
  | loop start | command start =>
    obtain start | start := start <;>
      exact List.forall_mem_singleton.2 (.inl (congrArg Kind.isStatementOnly start))
  | name ident => exact List.forall_mem_singleton.2 ⟨ident, rfl⟩
  | assign _ _ sign | fold _ sign | literal sign =>
    exact List.forall_mem_singleton.2 (congrArg Kind.isExpression sign)
  | signed sign =>
    obtain sign | sign := sign <;>
      exact List.forall_mem_singleton.2 (congrArg Kind.isExpression sign)
  | block | parameters | negation | subscript | call | array | hash | subroutine | pair =>
    exact List.forall_mem_singleton.2 rfl

/-- A phrase with a single tree. -/
theorem Derives.accepts_one {u : Tree} (h : Derives limit p c ts rest [u]) : p.Accepts u :=
  h.accepts u (.head _)

theorem Derives.clauses_alternate (h : Derives limit .clauses c ts rest us) : Kind.Clauses us := by
  generalize phrase : Phrase.clauses = q at h
  induction h with
  | noClause => exact trivial
  | nextClause _ condition body _ _ _ others =>
    exact ⟨condition.accepts_one, body.accepts_one, others phrase⟩
  | _ => cases phrase

/-- There is at most one block of a last `else`. -/
theorem Derives.otherwise_block (h : Derives limit .otherwise c ts rest us) :
    us = [] ∨ ∃ o, us = [o] ∧ o.kind = .label .block := by
  cases h with
  | noOtherwise => exact .inl rfl
  | otherwise _ body => exact .inr ⟨_, rfl, body.accepts_one⟩

namespace Tree

/-- Every node has its shape, and returns stand in a subroutine: one of the tree, or one around it
if it stands `inside` of one. -/
def Proper (inside : Bool) (t : Tree) : Prop :=
  ∀ as n, t.Path as n → n.kind.Shape n.children ∧
    (n.kind = .keyword .returnWord → inside = true ∨ ∃ a ∈ as, a.kind.opensSubroutine)

/-- A node with its shape over proper children is proper. -/
theorem Proper.node {inside inner : Bool} {t : Token} {cs : List Tree} (shape : t.kind.Shape cs)
    (leave : t.kind = .keyword .returnWord → inside = true)
    (opens : inner = true → inside = true ∨ t.kind.opensSubroutine)
    (below : ∀ c ∈ cs, c.Proper inner) : (Tree.node t cs).Proper inside := by
  intro as n path
  cases path with
  | root => exact ⟨shape, fun isReturn => .inl (leave isReturn)⟩
  | @inner _ c _ as child path =>
    obtain ⟨shape, inSubroutine⟩ := below c child as n path
    refine ⟨shape, fun isReturn => ?_⟩
    obtain within | ⟨a, above, opens⟩ := inSubroutine isReturn
    · obtain inside | opens := opens within
      · exact .inl inside
      · exact .inr ⟨_, List.mem_cons_self, opens⟩
    · exact .inr ⟨a, List.mem_cons_of_mem _ above, opens⟩

/-- A node of a kind that is no return and starts no subroutine. -/
theorem Proper.over {inside : Bool} {t : Token} {k : Kind} {cs : List Tree} (kind : t.kind = k)
    (shape : k.Shape cs) (noReturn : k ≠ .keyword .returnWord) (below : ∀ c ∈ cs, c.Proper inside) :
    (Tree.node t cs).Proper inside := by
  subst kind
  exact .node shape (fun isReturn => absurd isReturn noReturn) .inl below

/-- A node that starts a subroutine. -/
theorem Proper.opening {inside : Bool} {t : Token} {cs : List Tree} (shape : t.kind.Shape cs)
    (opens : t.kind.opensSubroutine) (below : ∀ c ∈ cs, c.Proper true) :
    (Tree.node t cs).Proper inside := by
  refine .node shape (fun isReturn => ?_) (fun _ => .inr opens) below
  rw [isReturn] at opens
  cases opens

theorem Proper.leaf {inside : Bool} {t : Token} {l : Literal} (literal : t.kind = .literal l) :
    (Tree.leaf t).Proper inside :=
  .over literal rfl (by simp) fun c hc => nomatch hc

/-- What is proper outside of a subroutine is so inside of one. -/
theorem Proper.inside {inside : Bool} {t : Tree} (h : t.Proper inside) : t.Proper true := by
  intro as n path
  exact ⟨(h as n path).1, fun _ => .inl rfl⟩

/-- The only tree of a phrase is proper if the node at its root is. -/
theorem proper_single {inside : Bool} {t : Token} {k : Kind} {cs : List Tree} (kind : t.kind = k)
    (shape : k.Shape cs) (noReturn : k ≠ .keyword .returnWord)
    (below : ∀ c ∈ cs, c.Proper inside) : ∀ u ∈ [Tree.node t cs], u.Proper inside :=
  List.forall_mem_singleton.2 (.over kind shape noReturn below)

theorem proper_label {inside : Bool} {l : Label} {location : Location} {cs : List Tree}
    (shape : (Kind.label l).Shape cs) (below : ∀ c ∈ cs, c.Proper inside) :
    ∀ u ∈ [Tree.node (l.token location) cs], u.Proper inside :=
  proper_single rfl shape Kind.noConfusion below

/-- The trees of a phrase and those of a phrase behind it. -/
theorem proper_cons {inside : Bool} {u : Tree} {us : List Tree}
    (first : ∀ v ∈ [u], v.Proper inside) (others : ∀ v ∈ us, v.Proper inside) :
    ∀ v ∈ u :: us, v.Proper inside :=
  List.forall_mem_cons.2 ⟨first u (.head _), others⟩

end Tree

open AresSyntax.Tree (Proper proper_single proper_label proper_cons)

/-- The trees of a phrase are proper. The body of a declaration is derived inside of a subroutine,
its parameters where the declaration stands. -/
theorem Derives.proper (h : Derives limit p c ts rest us) : ∀ u ∈ us, u.Proper c.inSubroutine := by
  induction h with
  | noStatement | noClause | noOtherwise | noPair | emptyList => exact fun u hu => nomatch hu
  | nextStatement _ _ _ first others | nextPair _ _ _ _ first others
  | nextItem _ _ _ _ first others => exact proper_cons first others
  | nextClause _ _ _ _ condition body others =>
    exact proper_cons condition (proper_cons body others)
  | lastStatement _ inner | lastItem _ inner | expression _ _ inner | plain _ inner
  | tighter _ inner | tightest _ inner | unsigned _ inner | untrailed _ inner
  | group _ _ _ _ _ inner | lastPair _ inner | someItems _ inner | otherwise _ _ inner
  | value _ inner => exact inner
  | literal literal => exact List.forall_mem_singleton.2 (.leaf literal)
  | name ident => exact List.forall_mem_singleton.2 (.leaf ident)
  | declaration start ident params body properParams properBody =>
    have properName : ∀ v ∈ [Tree.leaf _], v.Proper true :=
      List.forall_mem_singleton.2 (.leaf ident)
    have inside : ∀ v ∈ [_], Proper true v := fun v hv => (properParams v hv).inside
    refine List.forall_mem_singleton.2 (.opening ?_ rfl ?_)
    · exact ⟨ident, rfl, params.accepts_one, body.accepts_one⟩
    · exact proper_cons properName (proper_cons inside properBody)
  | subroutine start params body properParams properBody =>
    have inside : ∀ v ∈ [_], Proper true v := fun v hv => (properParams v hv).inside
    refine List.forall_mem_singleton.2 (.opening ?_ rfl ?_)
    · exact ⟨params.accepts_one, body.accepts_one⟩
    · exact proper_cons inside properBody
  | conditional start condition body further last properCondition properBody properFurther
      properLast =>
    have clauses : (Kind.label .elifClauses).Shape _ := further.clauses_alternate
    refine proper_single start ?_ (by simp) (proper_cons properCondition
      (proper_cons properBody (proper_cons (proper_label clauses properFurther) properLast)))
    exact ⟨condition.accepts_one, body.accepts_one, rfl, last.otherwise_block⟩
  | loop start condition body properCondition properBody =>
    obtain start | start := start <;>
    · refine proper_single start ?_ (by simp) ?_
      · exact ⟨condition.accepts_one, body.accepts_one⟩
      · exact proper_cons properCondition properBody
  | iteration start ident _ range body properRange properBody =>
    refine proper_single start ?_ (by simp) ?_
    · exact ⟨ident, rfl, range.accepts_one, body.accepts_one⟩
    · exact List.forall_mem_cons.2 ⟨.leaf ident, proper_cons properRange properBody⟩
  | command start value properValue =>
    obtain start | start := start <;>
      exact proper_single start value.accepts_one (by simp) properValue
  | leave inside start =>
    refine List.forall_mem_singleton.2 (.node ?_ (fun _ => inside) .inl fun c hc => nomatch hc)
    rw [start]
    exact .inl rfl
  | leaveWith inside start value properValue =>
    refine List.forall_mem_singleton.2 (.node ?_ (fun _ => inside) .inl properValue)
    rw [start]
    exact .inr ⟨_, rfl, value.accepts_one⟩
  | block _ _ _ _ inner _ properInner =>
    exact proper_label inner.accepts properInner
  | parameters _ _ inner _ _ properInner | array _ _ inner _ _ properInner
  | hash _ _ inner _ _ properInner =>
    exact proper_label inner.accepts properInner
  | assign target assignable sign _ value properTarget properValue =>
    refine proper_single sign ?_ (by simp) ?_
    · exact ⟨assignable, value.accepts_one⟩
    · exact proper_cons properTarget properValue
  | fold left sign _ _ right properLeft properRight =>
    refine proper_single sign ?_ (by simp) ?_
    · exact ⟨left.accepts_one, right.accepts_one⟩
    · exact proper_cons properLeft properRight
  | negation _ _ inner properInner =>
    exact proper_single rfl inner.accepts_one (by simp) properInner
  | signed sign _ inner properInner =>
    obtain sign | sign := sign <;>
      exact proper_single sign inner.accepts_one (by simp) properInner
  | subscript base _ _ index _ _ properBase properIndex =>
    refine proper_label ?_ ?_
    · exact ⟨base.accepts_one, index.accepts_one⟩
    · exact proper_cons properBase properIndex
  | call callee _ _ arguments _ _ properCallee properArguments =>
    refine proper_label ?_ ?_
    · exact ⟨callee.accepts_one, arguments.accepts⟩
    · exact proper_cons properCallee properArguments
  | pair key _ _ value properKey properValue =>
    refine proper_label ?_ ?_
    · exact ⟨key.accepts_one, value.accepts_one⟩
    · exact proper_cons properKey properValue

theorem DerivesProgram.proper {t : Tree} (h : DerivesProgram limit ts t) :
    t.kind = .label .block ∧ t.Proper false := by
  cases h with
  | intro lines inner ending =>
    have shape : (Kind.label .block).Shape _ := inner.accepts
    exact ⟨rfl, proper_label shape inner.proper _ (.head _)⟩

/-- In the tree of a text every node has the shape of its kind, returns stand in subroutines, and
statements that are no expressions are children of blocks. -/
theorem parse_wellFormed {limits : Limits} {text file : String} {t : Tree}
    (h : parse limits text file = .ok t) :
    t.kind = .label .block ∧ (∀ n ∈ t.walk, n.kind.Shape n.children) ∧
      ∀ as n, t.Path as n →
        (n.kind = .keyword .returnWord → ∃ a ∈ as, a.kind.opensSubroutine) ∧
        (n.kind.isStatementOnly → ∃ p, as.getLast? = some p ∧ p.kind = .label .block) := by
  obtain ⟨ts, _, derived⟩ := parse_derives h
  obtain ⟨block, proper⟩ := derived.proper
  refine ⟨block, ?_, ?_⟩
  · intro n visited
    obtain ⟨as, path⟩ := Tree.mem_walk.1 visited
    exact (proper as n path).1
  · intro as n path
    constructor
    · intro isReturn
      obtain outside | above := (proper as n path).2 isReturn
      · cases outside
      · exact above
    · intro statement
      obtain ⟨rfl, _⟩ | ⟨p, bs, last, child, above⟩ := path.exists_parent
      · rw [block] at statement
        cases statement
      · exact ⟨p, last, (proper bs p above).1.block_of_statement child statement⟩

theorem parse_wellFormed_subroutine :
    ∃ t, parse .standard "def f(x) { if x { return [-x] } }" "f.ares" = .ok t ∧
      t.render = "(BLOCK (SUB_DECL f (SUB_PARAMS x) " ++
        "(BLOCK (if x (BLOCK (return (ARRAY_DECL (- x)))) ELIF))))" ∧
      (∀ n ∈ t.walk, n.kind.Shape n.children) ∧
      ∀ as n, t.Path as n → n.kind = .keyword .returnWord → ∃ a ∈ as, a.kind.opensSubroutine := by
  have shown : (parse .standard "def f(x) { if x { return [-x] } }" "f.ares").toOption.map
      Tree.render = some ("(BLOCK (SUB_DECL f (SUB_PARAMS x) " ++
        "(BLOCK (if x (BLOCK (return (ARRAY_DECL (- x)))) ELIF))))") := by
    decide +kernel
  obtain ⟨t, found, render⟩ := exists_tree_of_render shown
  obtain ⟨_, shapes, places⟩ := parse_wellFormed found
  exact ⟨t, found, render, shapes, fun as n path => (places as n path).1⟩

end AresSyntax
