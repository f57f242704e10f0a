import AresSyntax.Proofs.Grammar.Peaks
import AresSyntax.Proofs.Tree.Chains
import AresSyntax.Proofs.Tree.Shape
import AresSyntax.Proofs.Tree.Spelled

/-!
The brackets that are open at once where a tree is written out. There are at least as many as
operators stand one below another, each of them before an operand in parentheses.

* `Lexeme.balance`, `Lexeme.height`: the brackets that lexemes leave open, and the most of them;
* `Lexeme.Covers`: lexemes that close what they open, with some parts in them;
* `covers_spelledOver`: what a node is written with;
* `Tree.chain_le_height`, `Tree.chain_le_height_lines`: chains of operators in a tree and in a
  program that are written out.
-/
namespace AresSyntax
namespace Lexeme

/-- The brackets that some lexemes open, less those that they close. -/
def balance (ls : List Lexeme) : Int := rise (ls.map kind)

/-- The most brackets that are open at once in some lexemes. -/
def height (ls : List Lexeme) : Int := peak (ls.map kind)

section
variable {l : Lexeme} {ls ms p : List Lexeme} {ps qs : List (List Lexeme)} {m o e : Mark} {n : Nat}

@[simp] theorem balance_nil : balance [] = 0 := rfl

@[simp] theorem balance_cons (l : Lexeme) (ls : List Lexeme) :
    balance (l :: ls) = l.kind.rise + balance ls :=
  rise_cons _ _

@[simp] theorem balance_append (ls ms : List Lexeme) :
    balance (ls ++ ms) = balance ls + balance ms := by
  rw [balance, List.map_append, rise_append, balance, balance]

@[simp] theorem height_nil : height [] = 0 := rfl

@[simp] theorem height_cons (l : Lexeme) (ls : List Lexeme) :
    height (l :: ls) = max 0 (l.kind.rise + height ls) := rfl

@[simp] theorem height_append (ls ms : List Lexeme) :
    height (ls ++ ms) = max (height ls) (balance ls + height ms) := by
  rw [height, List.map_append, peak_append, height, height, balance]

theorem height_nonneg (ls : List Lexeme) : 0 ≤ height ls := peak_nonneg _

/-- Holds for lexemes that close what they open, with the parts `ps` in them, each of which has `n`
more brackets open around it. -/
structure Covers (n : Nat) (ls : List Lexeme) (ps : List (List Lexeme)) : Prop where
  closed : balance ls = 0
  inside : ∀ p ∈ ps, height p + n ≤ height ls

namespace Covers

theorem nil : Covers n [] [] := ⟨rfl, nofun⟩

theorem part (closed : balance p = 0) : Covers 0 p [p] := ⟨closed, by simp⟩

theorem weaken {n' : Nat} (h : Covers n ls ps) (less : n' ≤ n) : Covers n' ls ps where
  closed := h.closed
  inside p hp := by
    have inside := h.inside p hp
    omega

/-- A token that is no bracket changes nothing. -/
theorem token (plain : l.kind.rise = 0) (h : Covers n ls ps) : Covers n (l :: ls) ps where
  closed := by rw [balance_cons, plain, h.closed]; rfl
  inside p hp := by
    have inside := h.inside p hp
    rw [height_cons, plain]
    omega

theorem append (h : Covers n ls ps) (h' : Covers n ms qs) : Covers n (ls ++ ms) (ps ++ qs) where
  closed := by rw [balance_append, h.closed, h'.closed]; rfl
  inside p hp := by
    rw [height_append, h.closed]
    obtain hp | hp := List.mem_append.1 hp
    · have inside := h.inside p hp
      omega
    · have inside := h'.inside p hp
      omega

/-- What is between two brackets has one bracket more open around it. -/
theorem enclosed (h : Covers n ls ps) (opens : (Kind.mark o).rise = 1)
    (closes : (Kind.mark e).rise = -1) : Covers (n + 1) (enclosed o ls e) ps where
  closed := by
    have opening : (ofMark o).kind.rise = 1 := opens
    have closing : (ofMark e).kind.rise = -1 := closes
    simp [Lexeme.enclosed, opening, closing, h.closed]
  inside p hp := by
    have opening : (ofMark o).kind.rise = 1 := opens
    have closing : (ofMark e).kind.rise = -1 := closes
    have inside := h.inside p hp
    simp only [Lexeme.enclosed, List.cons_append, height_cons, height_append, height_nil, opening,
      closing, h.closed]
    omega

theorem grouped (closed : balance p = 0) : Covers 1 (grouped p) [p] :=
  (part closed).enclosed rfl rfl

theorem groupedIf (parens : Bool) (closed : balance p = 0) :
    Covers parens.toNat (groupedIf parens p) [p] := by
  cases parens with
  | true => exact .grouped closed
  | false => exact .part closed

theorem separated (plain : (Kind.mark m).rise = 0) (closed : ∀ p ∈ ps, balance p = 0) :
    Covers 0 (separated m ps) ps := by
  induction ps with
  | nil => exact .nil
  | cons p ps ih =>
    obtain ⟨first, others⟩ := List.forall_mem_cons.1 closed
    cases ps with
    | nil =>
      rw [Lexeme.separated, List.intercalate_singleton]
      exact part first
    | cons q ps =>
      rw [Lexeme.separated, List.intercalate_cons_cons, List.append_assoc]
      exact (part first).append ((ih others).token plain)

theorem listed (closed : ∀ p ∈ ps, balance p = 0) (opens : (Kind.mark o).rise = 1)
    (closes : (Kind.mark e).rise = -1) : Covers 0 (listed o ps e) ps :=
  ((separated rfl closed).enclosed opens closes).weaken (Nat.zero_le _)

end Covers
end
end Lexeme

open Lexeme

/-- Holds for the operators before an operand that is written in parentheses. -/
def Kind.encloses (parens : Bool) (k : Kind) : Bool :=
  k.isPrefixOperator || k.isAssignment && parens

section
variable {parens : Bool} {k : Kind} {own : Lexeme} {cs : List Tree}

theorem covers_clauses (shape : Kind.Clauses cs)
    (closed : ∀ c ∈ cs, balance (c.spelled parens) = 0) :
    Covers 0 (clauses (cs.map (Tree.spelled parens))) (cs.map (Tree.spelled parens)) := by
  fun_induction Kind.Clauses cs with
  | case1 => exact .nil
  | case2 e b cs ih =>
    have condition := Covers.grouped (closed e (by simp))
    have body := Covers.part (closed b (by simp))
    have others := ih shape.2.2 fun c hc => closed c (by simp [hc])
    exact .append (.token rfl (.append (condition.weaken (Nat.zero_le _)) body)) others
  | case3 => exact shape.elim

/-- What a node is written with closes what it opens, with all its children in it. -/
theorem covers_spelledOver (same : own.kind = k) (shape : k.Shape cs)
    (closed : ∀ c ∈ cs, balance (c.spelled parens) = 0) :
    Covers (k.encloses parens).toNat (k.spelledOver parens own (cs.map (Tree.spelled parens)))
      (cs.map (Tree.spelled parens)) := by
  have plain (zero : k.rise = 0) : own.kind.rise = 0 := same ▸ zero
  have part (c : Tree) (hc : c ∈ cs) := Covers.part (closed c hc)
  have grouped (c : Tree) (hc : c ∈ cs) := Covers.grouped (closed c hc)
  have operand (c : Tree) (hc : c ∈ cs) := (grouped c hc).weaken (Nat.zero_le 1)
  have parts (es : List Tree) (sub : es ⊆ cs) :
      ∀ p ∈ es.map (Tree.spelled parens), balance p = 0 :=
    List.forall_mem_map.2 fun e he => closed e (sub he)
  unfold Kind.Shape at shape
  split at shape
  case h_1 =>
    subst shape
    exact .token (plain rfl) .nil
  case h_2 op l e =>
    exact .append (operand l (by simp)) (.token (plain rfl) (operand e (by simp)))
  case h_3 op l e =>
    have value := Covers.groupedIf parens (closed e (by simp))
    have target := (grouped l (by simp)).weaken (Bool.toNat_le parens)
    exact .append target (.token (plain rfl) value)
  case h_4 e => exact .token rfl (grouped e (by simp))
  case h_5 e | h_6 e => exact .token (plain rfl) (grouped e (by simp))
  case h_7 l e =>
    have index := (part e (by simp)).enclosed (o := .openBracket) (e := .closeBracket) rfl rfl
    exact .append (operand l (by simp)) (index.weaken (Nat.zero_le _))
  case h_8 l es =>
    have arguments := parts es (List.subset_cons_self _ _)
    exact .append (operand l (by simp)) (.listed arguments rfl rfl)
  case h_9 | h_10 | h_14 => exact .listed (parts cs (List.Subset.refl _)) rfl rfl
  case h_11 l e => exact .append (part l (by simp)) (.token rfl (part e (by simp)))
  case h_12 ps b => exact .token rfl (.append (part ps (by simp)) (part b (by simp)))
  case h_13 n ps b =>
    exact .token rfl (.append (.append (part n (by simp)) (part ps (by simp))) (part b (by simp)))
  case h_15 =>
    have statements := Covers.separated (m := .newline) rfl (parts cs (List.Subset.refl _))
    exact (statements.enclosed rfl rfl).weaken (Nat.zero_le _)
  case h_16 => exact covers_clauses shape closed
  case h_17 e b f os =>
    have last : Covers 0 (otherwise (os.map (Tree.spelled parens)))
        (os.map (Tree.spelled parens)) := by
      obtain rfl | ⟨o, rfl, -⟩ := shape.2.2.2
      · exact .nil
      · exact .token rfl (part o (by simp))
    have first := (operand e (by simp)).append (part b (by simp))
    exact .token (plain rfl) (.append (.append first (part f (by simp))) last)
  case h_18 e b | h_19 e b =>
    exact .token (plain rfl) (.append (operand e (by simp)) (part b (by simp)))
  case h_20 n e b =>
    have range := Covers.token (l := ofKeyword .inWord) rfl (part e (by simp))
    exact .token (plain rfl) (.append (.append (part n (by simp)) range) (part b (by simp)))
  case h_21 e | h_22 e => exact .token (plain rfl) (.append (part e (by simp)) .nil)
  case h_23 =>
    obtain rfl | ⟨e, rfl, -⟩ := shape
    · exact .token (plain rfl) .nil
    · exact .token (plain rfl) (.append (part e (by simp)) .nil)
  case h_24 => exact shape.elim

/-- A node without children is no operator. -/
theorem Kind.Shape.encloses_nil (shape : k.Shape []) (parens : Bool) :
    k.encloses parens = false := by
  unfold Kind.Shape at shape
  split at shape <;> first | rfl | contradiction

namespace Tree

/-- What a tree is written with closes what it opens, and around what is below the root as many
brackets are open as the root puts there. -/
theorem covers_spelled {token : Token}
    (shapes : ∀ n ∈ (node token cs).walk, n.kind.Shape n.children)
    (closed : ∀ c ∈ cs, balance (c.spelled parens) = 0) :
    Covers (token.kind.encloses parens).toNat ((node token cs).spelled parens)
      (cs.map (spelled parens)) := by
  rw [spelled, spelledAll_eq]
  exact covers_spelledOver rfl (shapes _ (.head _)) closed

theorem balance_spelled (parens : Bool) {t : Tree}
    (shapes : ∀ n ∈ t.walk, n.kind.Shape n.children) : balance (t.spelled parens) = 0 := by
  induction t using Tree.induction with
  | node token cs ih =>
    have below (c : Tree) (hc : c ∈ cs) : balance (c.spelled parens) = 0 :=
      ih c hc fun n hn => shapes n (.tail _ (mem_walkAll.2 ⟨c, hc, hn⟩))
    exact (covers_spelled shapes below).closed

/-- As many brackets are open at once in a tree that is written out as operators with an operand in
parentheses stand one below another. -/
theorem chain_le_height (parens : Bool) {t : Tree}
    (shapes : ∀ n ∈ t.walk, n.kind.Shape n.children) :
    (t.chain (Kind.encloses parens) : Int) ≤ height (t.spelled parens) := by
  induction t using Tree.induction with
  | node token cs ih =>
    have inner (c : Tree) (hc : c ∈ cs) : ∀ n ∈ c.walk, n.kind.Shape n.children :=
      fun n hn => shapes n (.tail _ (mem_walkAll.2 ⟨c, hc, hn⟩))
    have covers := covers_spelled shapes fun c hc => balance_spelled parens (inner c hc)
    have shape : token.kind.Shape cs := shapes _ (.head _)
    have around (c : Tree) (hc : c ∈ cs) := covers.inside _ (List.mem_map_of_mem hc)
    rw [chain_node]
    cases cs with
    | nil =>
      rw [shape.encloses_nil parens, chainAll_nil]
      exact height_nonneg _
    | cons c cs =>
      obtain ⟨e, he, most⟩ := exists_chain_eq_chainAll (Kind.encloses parens) c cs
      have child := ih e he (inner e he)
      have outside := around e he
      omega

/-- A program has its statements on lines, so what is in it is in one of them. -/
theorem chain_le_height_lines (parens : Bool) {t : Tree} (root : t.kind = .label .block)
    (shapes : ∀ n ∈ t.walk, n.kind.Shape n.children) :
    (t.chain (Kind.encloses parens) : Int) ≤ height (t.lines parens) := by
  obtain ⟨token, cs⟩ := t
  have kind : token.kind = .label .block := root
  have inner (c : Tree) (hc : c ∈ cs) : ∀ n ∈ c.walk, n.kind.Shape n.children :=
    fun n hn => shapes n (.tail _ (mem_walkAll.2 ⟨c, hc, hn⟩))
  have closed : ∀ p ∈ cs.map (spelled parens), balance p = 0 :=
    List.forall_mem_map.2 fun c hc => balance_spelled parens (inner c hc)
  have covers := Covers.separated (m := .newline) rfl closed
  have none : (token.kind.encloses parens).toNat = 0 := by rw [kind]; rfl
  rw [chain_node, none, Nat.zero_add]
  cases cs with
  | nil => exact height_nonneg _
  | cons c cs =>
    obtain ⟨e, he, most⟩ := exists_chain_eq_chainAll (Kind.encloses parens) c cs
    have child := chain_le_height parens (inner e he)
    have outside : height (e.spelled parens) ≤ height (lines parens (node token (c :: cs))) := by
      simpa [lines, children] using covers.inside _ (List.mem_map_of_mem he)
    omega

end Tree
end
end AresSyntax
