import AresSyntax.Proofs.Program.Phrases

/-!
A tree is derived again from what it is written with.

* `Kind.phrase`: the construct that a node of a kind is;
* `Recovers`: trees that are read again;
* `recovers`: every tree with the shapes of trees and standard tokens;
* `derives_spelled`: whole programs.
-/
namespace AresSyntax

/-- The construct that the nodes of a kind are. -/
def Kind.phrase : Kind → Phrase
  | label .block => .block
  | label .subParams => .parameters
  | label .hashElem => .pair
  | label .elifClauses => .clauses
  | k => if k.isStatementOnly then .statement else .assignment

theorem Kind.phrase_of_isExpression {k : Kind} (h : k.isExpression) : k.phrase = .assignment := by
  unfold isExpression at h
  split at h <;> first | rfl | cases h

theorem Kind.phrase_of_isStatementOnly {k : Kind} (h : k.isStatementOnly) :
    k.phrase = .statement := by
  unfold isStatementOnly at h
  split at h <;> first | rfl | cases h

/-- The trees of the construct that a node is: the clauses of a conditional are no tree of their
own. -/
def Tree.yield (t : Tree) : List Tree := if t.kind = .label .elifClauses then t.children else [t]

theorem Tree.yield_of_ne {t : Tree} (h : t.kind ≠ .label .elifClauses) : t.yield = [t] := if_neg h

/-- Holds for trees that are read again from what they are written with, in a subroutine or not. -/
def Recovers (parens : Bool) (location : Location) (inside : Bool) (t : Tree) : Prop :=
  ∀ c, c.inSubroutine = inside →
    Whole none location t.kind.phrase c (t.spelled parens) (recast (.gather location) t.yield)

section
open Lexeme

variable {parens : Bool} {location : Location} {c : Context} {t e : Tree} {token : Token}
  {cs : List Tree}

theorem Recovers.expression (h : Recovers parens location c.inSubroutine e)
    (kind : e.kind.isExpression) :
    Whole none location .assignment c (e.spelled parens) [recast (.gather location) e] := by
  have other : e.kind ≠ .label .elifClauses := by
    intro same
    simp [same, Kind.isExpression] at kind
  have whole := h c rfl
  rwa [Kind.phrase_of_isExpression kind, Tree.yield_of_ne other] at whole

theorem Recovers.block (h : Recovers parens location c.inSubroutine e)
    (kind : e.kind = .label .block) :
    Whole none location .block c (e.spelled parens) [recast (.gather location) e] := by
  have whole := h c rfl
  rwa [kind, Tree.yield_of_ne (by simp [kind])] at whole

theorem Recovers.pair (h : Recovers parens location c.inSubroutine e)
    (kind : e.kind = .label .hashElem) :
    Whole none location .pair c (e.spelled parens) [recast (.gather location) e] := by
  have whole := h c rfl
  rwa [kind, Tree.yield_of_ne (by simp [kind])] at whole

theorem Recovers.clauses (h : Recovers parens location c.inSubroutine e)
    (kind : e.kind = .label .elifClauses) :
    Whole none location .clauses c (e.spelled parens) (recast (.gather location) e.children) := by
  have whole := h c rfl
  rwa [kind, Tree.yield, if_pos kind] at whole

theorem Recovers.statement (h : Recovers parens location c.inSubroutine e)
    (kind : e.kind.isStatementOnly ∨ e.kind.isExpression) :
    Whole none location .statement c (e.spelled parens) [recast (.gather location) e] := by
  obtain kind | kind := kind
  · have other : e.kind ≠ .label .elifClauses := by
      intro same
      simp [same, Kind.isStatementOnly] at kind
    have whole := h c rfl
    rwa [Kind.phrase_of_isStatementOnly kind, Tree.yield_of_ne other] at whole
  · have inner : Recovers parens location c.deeper.inSubroutine e := h
    exact (inner.expression kind).value

/-- A name is a leaf. -/
theorem name_leaf (parens : Bool) (location : Location) {n : Tree}
    (h : n.kind = .literal .ident ∧ n.children = []) :
    n.token.kind = .literal .ident ∧ n.spelled parens = [n.token.lexeme] ∧
      recast (.gather location) n = .leaf (n.token.lexeme.token location) := by
  obtain ⟨token, cs⟩ := n
  obtain ⟨ident, rfl⟩ := h
  have kind : token.kind = .literal .ident := ident
  refine ⟨kind, by simp [Tree.spelled, Kind.spelledOver, kind, Tree.token], ?_⟩
  exact congrArg Tree.leaf (token.recast_gather location)

theorem whole_parameters (parens : Bool) (location : Location) (c : Context) {ps : Tree}
    (kind : ps.kind = .label .subParams) (shape : ps.kind.Shape ps.children)
    (own : ps.token.Standard) :
    Whole none location .parameters c (ps.spelled parens) [recast (.gather location) ps] := by
  obtain ⟨token, ns⟩ := ps
  have same : token.kind = .label .subParams := kind
  rw [kind] at shape
  have names : Whole none location (.list .name) c (separated .comma (ns.map (Tree.spelled parens)))
      (recast (.gather location) ns) := by
    refine Whole.list fun n hn => ?_
    obtain ⟨ident, spelled, leaf⟩ := name_leaf parens location (shape n hn)
    rw [spelled, leaf]
    exact fun _ _ => .name ident
  have place : recast (.gather location) token = Label.subParams.token location :=
    own.recast_gather same location
  rw [recast_node, place, Tree.spelled, Tree.spelledAll_eq, same]
  exact names.parameters

/-- An expression that is no subroutine, from its children. -/
theorem whole_expression {k : Kind} (same : token.kind = k) (expression : k.isExpression)
    (noBody : k.opensSubroutine = false) (shape : k.Shape cs) (own : token.Standard)
    (below : ∀ e ∈ cs, Recovers parens location c.inSubroutine e) :
    Whole none location .assignment c
      (k.spelledOver parens token.lexeme (cs.map (Tree.spelled parens)))
      [.node (recast (.gather location) token) (recast (.gather location) cs)] := by
  have inner (e : Tree) (he : e ∈ cs) (kind : e.kind.isExpression) :
      Whole none location .assignment c.deeper (e.spelled parens) [recast (.gather location) e] :=
    Recovers.expression (c := c.deeper) (below e he) kind
  have items (es : List Tree) (sub : es ⊆ cs) (kinds : ∀ e ∈ es, e.kind.isExpression) :=
    Whole.list fun e he rest behind => Derives.expression c.deeper.within_none
      (inner e (sub he) (kinds e he) rest behind)
  have shown : recast (.gather location) token = token.lexeme.token location :=
    token.recast_gather location
  have label (l : Label) (kind : token.kind = .label l) :
      recast (.gather location) token = l.token location := own.recast_gather kind location
  unfold Kind.Shape at shape
  split at shape
  case h_1 l =>
    subst shape
    rw [shown]
    exact (Whole.literal same).atom
  case h_2 op l e =>
    rw [shown]
    exact .binary same (inner l (by simp) shape.1) (inner e (by simp) shape.2)
  case h_3 op l e =>
    obtain ⟨assignable, value⟩ := shape
    have target : l.kind.isExpression := by
      obtain kind | kind := assignable <;> simp [kind, Kind.isExpression]
    rw [shown]
    exact .assign same (by simpa using assignable) c.deeper.within_none (inner l (by simp) target)
      (.groupedIf parens fun d inside => Recovers.expression (inside ▸ below e (by simp)) value)
  case h_4 e =>
    rw [← recast_token, own.recast_negation same]
    exact .negation (inner e (by simp) shape)
  case h_5 e =>
    rw [shown]
    exact .signed (.inl same) (inner e (by simp) shape)
  case h_6 e =>
    rw [shown]
    exact .signed (.inr same) (inner e (by simp) shape)
  case h_7 l e =>
    rw [label _ same]
    exact .subscript (inner l (by simp) shape.1) (inner e (by simp) shape.2)
  case h_8 l es =>
    rw [label _ same]
    exact .call (inner l (by simp) shape.1) (items es (List.subset_cons_self _ _) shape.2)
  case h_9 =>
    rw [label _ same]
    exact .array (items cs (List.Subset.refl _) shape)
  case h_10 =>
    rw [label _ same]
    exact .hash (.pairs fun e he => Recovers.pair (below e he) (shape e he))
  case h_12 => exact absurd noBody (by decide)
  case h_24 => exact shape.elim
  all_goals cases expression

theorem whole_clauses (h : Kind.Clauses cs)
    (below : ∀ e ∈ cs, Recovers parens location c.inSubroutine e) :
    Whole none location .clauses c (clauses (cs.map (Tree.spelled parens)))
      (recast (.gather location) cs) := by
  fun_induction Kind.Clauses cs with
  | case1 => exact fun _ _ => .noClause
  | case2 e b cs ih =>
    obtain ⟨he, hb, h⟩ := h
    have condition := Recovers.expression (c := c.deeper.deeper) (below e (by simp)) he
    have body := Recovers.block (below b (by simp)) hb
    exact .clause condition body (ih h fun e he => below e (by simp [he]))
  | case3 => exact h.elim

/-- A statement that is no declaration and no expression, from its children. -/
theorem whole_statement {k : Kind} (same : token.kind = k) (statement : k.isStatementOnly)
    (noBody : k.opensSubroutine = false) (shape : k.Shape cs)
    (own : ∀ e ∈ cs, e.token.Standard) (leave : k = .keyword .returnWord → c.inSubroutine = true)
    (below : ∀ e ∈ cs, Recovers parens location c.inSubroutine e) :
    Whole none location .statement c
      (k.spelledOver parens token.lexeme (cs.map (Tree.spelled parens)))
      [.node (recast (.gather location) token) (recast (.gather location) cs)] := by
  have inner (e : Tree) (he : e ∈ cs) (kind : e.kind.isExpression) (d : Context)
      (inside : d.inSubroutine = c.inSubroutine) :
      Whole none location .assignment d (e.spelled parens) [recast (.gather location) e] :=
    Recovers.expression (inside ▸ below e he) kind
  have block (b : Tree) (hb : b ∈ cs) (kind : b.kind = .label .block) :
      Whole none location .block c (b.spelled parens) [recast (.gather location) b] :=
    (below b hb).block kind
  rw [← recast_token, token.recast_gather]
  unfold Kind.Shape at shape
  split at shape
  case h_17 e b f os =>
    obtain ⟨he, hb, hf, last⟩ := shape
    have further := Recovers.clauses (below f (by simp)) hf
    have otherwise : Whole none location .otherwise c (otherwise (os.map (Tree.spelled parens)))
        (recast (.gather location) os) := by
      obtain rfl | ⟨o, rfl, ho⟩ := last
      · exact fun _ _ => .noOtherwise
      · exact fun rest behind => .otherwise rfl (block o (by simp) ho rest behind)
    obtain ⟨label, cs⟩ := f
    have place : recast (.gather location) label = Label.elifClauses.token location :=
      (own _ (by simp)).recast_gather hf location
    simp only [List.map_cons, recast_cons, recast_node, place]
    exact .conditional same (inner e (by simp) he _ rfl) (block b (by simp) hb) further otherwise
  case h_18 e b =>
    exact .loop (.inl same) (inner e (by simp) shape.1 _ rfl) (block b (by simp) shape.2)
  case h_19 e b =>
    exact .loop (.inr same) (inner e (by simp) shape.1 _ rfl) (block b (by simp) shape.2)
  case h_20 n e b =>
    obtain ⟨hn, leaf, he, hb⟩ := shape
    obtain ⟨ident, spelled, shown⟩ := name_leaf parens location ⟨hn, leaf⟩
    simp only [List.map_cons, List.map_nil, recast_cons, recast_nil, spelled, shown]
    exact .iteration same ident (inner e (by simp) he _ rfl) (block b (by simp) hb)
  case h_21 e =>
    have whole := Whole.command (.inl same) (inner e (by simp) shape c.deeper rfl)
    simpa [Kind.spelledOver] using whole
  case h_22 e =>
    have whole := Whole.command (.inr same) (inner e (by simp) shape c.deeper rfl)
    simpa [Kind.spelledOver] using whole
  case h_23 =>
    obtain rfl | ⟨e, rfl, he⟩ := shape
    · exact .leave (leave rfl) same
    · have whole := Whole.leaveWith (leave rfl) same (inner e (by simp) he c.deeper rfl)
      simpa [Kind.spelledOver] using whole
  case h_13 => exact absurd noBody (by decide)
  case h_24 => exact shape.elim
  all_goals cases statement

/-- A node that starts a subroutine, from its children. What is below stands in the subroutine. -/
theorem whole_subroutine {k : Kind} (same : token.kind = k) (opens : k.opensSubroutine)
    (shape : k.Shape cs) (shapes : ∀ e ∈ cs, e.kind.Shape e.children) (own : token.Standard)
    (standard : ∀ e ∈ cs, e.token.Standard) (below : ∀ e ∈ cs, Recovers parens location true e) :
    Whole none location k.phrase c
      (k.spelledOver parens token.lexeme (cs.map (Tree.spelled parens)))
      [.node (recast (.gather location) token) (recast (.gather location) cs)] := by
  have params (ps : Tree) (hp : ps ∈ cs) (kind : ps.kind = .label .subParams) :
      Whole none location .parameters c (ps.spelled parens) [recast (.gather location) ps] :=
    whole_parameters parens location _ kind (shapes ps hp) (standard ps hp)
  have body (b : Tree) (hb : b ∈ cs) (kind : b.kind = .label .block) :
      Whole none location .block c.body (b.spelled parens) [recast (.gather location) b] :=
    Recovers.block (c := c.body) (below b hb) kind
  have label (l : Label) (kind : token.kind = .label l) :
      recast (.gather location) token = l.token location := own.recast_gather kind location
  unfold Kind.Shape at shape
  split at shape
  case h_12 ps b =>
    rw [label _ same]
    exact .subroutine (params ps (by simp) shape.1) (body b (by simp) shape.2)
  case h_13 n ps b =>
    obtain ⟨hn, leaf, hp, hb⟩ := shape
    obtain ⟨ident, spelled, shown⟩ := name_leaf parens location ⟨hn, leaf⟩
    rw [label _ same]
    simp only [List.map_cons, List.map_nil, recast_cons, recast_nil, spelled, shown]
    exact .declaration ident (params ps (by simp) hp) (body b (by simp) hb)
  case h_24 => exact shape.elim
  all_goals cases opens

/-- A node that is no statement and no expression, from its children. -/
theorem whole_label {k : Kind} (same : token.kind = k) (noExpression : k.isExpression = false)
    (noStatement : k.isStatementOnly = false) (shape : k.Shape cs) (own : token.Standard)
    (below : ∀ e ∈ cs, Recovers parens location c.inSubroutine e) :
    Whole none location k.phrase c
      (k.spelledOver parens token.lexeme (cs.map (Tree.spelled parens)))
      (recast (.gather location) (Tree.node token cs).yield) := by
  have kind : (Tree.node token cs).kind = k := same
  have label (l : Label) (kind : token.kind = .label l) :
      recast (.gather location) token = l.token location := own.recast_gather kind location
  unfold Kind.Shape at shape
  split at shape
  case h_11 l e =>
    have key := Recovers.expression (c := c.deeper) (below l (by simp)) shape.1
    have value := Recovers.expression (c := c.deeper) (below e (by simp)) shape.2
    rw [Tree.yield_of_ne (by simp [kind]), recast_cons, recast_node, label _ same]
    exact .pair key value
  case h_14 =>
    have whole := whole_parameters parens location c kind (kind ▸ shape) own
    rw [Tree.spelled, Tree.spelledAll_eq, same] at whole
    rwa [Tree.yield_of_ne (by simp [kind])]
  case h_15 =>
    rw [Tree.yield_of_ne (by simp [kind]), recast_cons, recast_node, label _ same]
    exact .block (.statements fun e he =>
      Recovers.statement (c := c.deeper) (below e he) (shape e he))
  case h_16 =>
    rw [Tree.yield, if_pos kind]
    exact whole_clauses shape below
  case h_24 => exact shape.elim
  all_goals cases noExpression <;> cases noStatement

/-- What is below a node that starts no subroutine is proper where the node is. -/
theorem Tree.Proper.child {inside : Bool} (h : (Tree.node token cs).Proper inside)
    (noBody : token.kind.opensSubroutine = false) (he : e ∈ cs) : e.Proper inside := by
  intro as n path
  obtain ⟨shape, leave⟩ := h _ n (.inner he path)
  refine ⟨shape, fun isReturn => ?_⟩
  obtain inside | ⟨a, ha, opens⟩ := leave isReturn
  · exact .inl inside
  · obtain rfl | ha := List.mem_cons.1 ha
    · exact absurd (noBody.symm.trans opens) Bool.false_ne_true
    · exact .inr ⟨a, ha, opens⟩

/-- What is below a proper node is proper in a subroutine. -/
theorem Tree.Proper.body {inside : Bool} (h : (Tree.node token cs).Proper inside)
    (he : e ∈ cs) : e.Proper true := by
  intro as n path
  exact ⟨(h _ n (.inner he path)).1, fun _ => .inl rfl⟩

/-- A proper tree with standard tokens is read again from what it is written with. -/
theorem recovers (parens : Bool) (t : Tree) {inside : Bool} (proper : t.Proper inside)
    (standard : ∀ n ∈ t.walk, n.token.Standard) : Recovers parens location inside t := by
  induction t using Tree.induction generalizing inside with
  | node token cs ih =>
    rintro c rfl
    have shape : token.kind.Shape cs := (proper [] _ .root).1
    have own : token.Standard := standard _ (.head _)
    have walks (e : Tree) (he : e ∈ cs) : ∀ n ∈ e.walk, n.token.Standard :=
      fun n hn => standard n (.tail _ (Tree.mem_walkAll.2 ⟨e, he, hn⟩))
    have root (e : Tree) (he : e ∈ cs) : e.token.Standard :=
      walks e he e (Tree.mem_walk.2 ⟨[], .root⟩)
    rw [Tree.spelled, Tree.spelledAll_eq]
    cases opens : token.kind.opensSubroutine with
    | true =>
      have shapes (e : Tree) (he : e ∈ cs) : e.kind.Shape e.children :=
        (proper.body he [] e .root).1
      have other : (Tree.node token cs).kind ≠ .label .elifClauses := by
        intro (same : token.kind = _)
        simp [same, Kind.opensSubroutine] at opens
      rw [Tree.yield_of_ne other, recast_cons, recast_node]
      exact whole_subroutine rfl opens shape shapes own root fun e he =>
        ih e he (proper.body he) (walks e he)
    | false =>
      have below (e : Tree) (he : e ∈ cs) : Recovers parens location c.inSubroutine e :=
        ih e he (proper.child opens he) (walks e he)
      cases expression : token.kind.isExpression with
      | true =>
        have other : (Tree.node token cs).kind ≠ .label .elifClauses := by
          intro (same : token.kind = _)
          simp [same, Kind.isExpression] at expression
        rw [Tree.yield_of_ne other, recast_cons, recast_node,
          Kind.phrase_of_isExpression (by exact expression)]
        exact whole_expression rfl expression opens shape own below
      | false =>
        cases statement : token.kind.isStatementOnly with
        | true =>
          have other : (Tree.node token cs).kind ≠ .label .elifClauses := by
            intro (same : token.kind = _)
            simp [same, Kind.isStatementOnly] at statement
          have leave (isReturn : token.kind = .keyword .returnWord) : c.inSubroutine = true := by
            obtain inside | ⟨a, none, -⟩ := (proper [] _ .root).2 isReturn
            · exact inside
            · cases none
          rw [Tree.yield_of_ne other, recast_cons, recast_node,
            Kind.phrase_of_isStatementOnly (by exact statement)]
          exact whole_statement rfl statement opens shape root leave below
        | false => exact whole_label rfl expression statement shape own below

/-- The tokens of a program that is written out are derived to the program, all at one place. -/
theorem derives_spelled (parens : Bool) (root : t.kind = .label .block) (proper : t.Proper false)
    (standard : ∀ n ∈ t.walk, n.token.Standard) :
    DerivesProgram none
      (placed location (t.lines parens) ++ [.atEnd location])
      (recast (.gather location) t) := by
  obtain ⟨token, cs⟩ := t
  have kind : token.kind = .label .block := root
  have label : recast (.gather location) token = Label.block.token location :=
    (standard _ (.head _)).recast_gather kind location
  have shape : (Kind.label .block).Shape cs := by
    rw [← kind]
    exact (proper [] _ .root).1
  have noBody : token.kind.opensSubroutine = false := by rw [kind]; rfl
  have lines : Whole none location .statements .top (Tree.lines parens (.node token cs))
      (recast (.gather location) cs) := by
    refine .statements fun e he => Recovers.statement (c := .top) ?_ (shape e he)
    exact recovers parens e (proper.child noBody he) fun n hn =>
      standard n (.tail _ (Tree.mem_walkAll.2 ⟨e, he, hn⟩))
  rw [recast_node, label]
  exact lines.program

end

end AresSyntax
