import AresSyntax.Proofs.Script.Recasting
import AresSyntax.Proofs.Tree.Paths

/-!
How many nodes of some kinds stand one below another.

* `Kind.waits`: the nodes whose rule waits for its own last part;
* `Tree.chain`: the most nodes of some kinds on a way down from the root;
* `Tree.chain_mono`, `Tree.chain_le_add`: chains of nodes of more than one sort;
* `chain_recast`: chains in a tree of recast tokens.
-/
namespace AresSyntax

namespace Kind

/-- Holds for the prefix operators of a tree, where a minus sign is a negation. -/
def isPrefixOperator : Kind → Bool
  | negate | mark .bang | mark .tilde => true
  | _ => false

/-- Holds for the nodes whose rule waits for its own last part: the value of an assignment, and the
operand of a prefix operator. -/
def waits (k : Kind) : Bool := k.isAssignment || k.isPrefixOperator

end Kind

namespace Tree

mutual

/-- The most nodes of some kinds on a way down from the root. -/
def chain (p : Kind → Bool) : Tree → Nat
  | node t cs => (p t.kind).toNat + chainAll p cs

/-- The most nodes of some kinds on a way down from one of several trees. -/
def chainAll (p : Kind → Bool) : List Tree → Nat
  | [] => 0
  | c :: cs => max (c.chain p) (chainAll p cs)

end

variable {p q : Kind → Bool} {t : Tree} {us vs : List Tree} {n : Nat}

@[simp] theorem chain_node (p : Kind → Bool) (t : Token) (cs : List Tree) :
    (node t cs).chain p = (p t.kind).toNat + chainAll p cs := by
  rw [chain]

@[simp] theorem chainAll_nil (p : Kind → Bool) : chainAll p [] = 0 := by
  rw [chainAll]

@[simp] theorem chainAll_cons (p : Kind → Bool) (c : Tree) (cs : List Tree) :
    chainAll p (c :: cs) = max (c.chain p) (chainAll p cs) := by
  rw [chainAll]

/-- A label waits for none of its parts. -/
@[simp] theorem chain_waits_label (l : Label) (location : Location) (cs : List Tree) :
    (node (l.token location) cs).chain Kind.waits = chainAll Kind.waits cs := by
  rw [chain_node]
  exact Nat.zero_add _

theorem chainAll_le_chain (p : Kind → Bool) (t : Token) (cs : List Tree) :
    chainAll p cs ≤ (node t cs).chain p := by
  rw [chain_node]
  exact Nat.le_add_left _ _

theorem chainAll_le : chainAll p us ≤ n ↔ ∀ u ∈ us, u.chain p ≤ n := by
  induction us with
  | nil => simp
  | cons u us ih => rw [chainAll_cons, Nat.max_le, List.forall_mem_cons, ih]

theorem chain_le_chainAll (h : t ∈ us) : t.chain p ≤ chainAll p us :=
  chainAll_le.1 (Nat.le_refl _) t h

theorem exists_chain_eq_chainAll (p : Kind → Bool) (u : Tree) (us : List Tree) :
    ∃ v ∈ u :: us, v.chain p = chainAll p (u :: us) := by
  induction us generalizing u with
  | nil => exact ⟨u, by simp⟩
  | cons v us ih =>
    obtain ⟨w, hw, most⟩ := ih v
    rw [chainAll_cons, ← most]
    obtain less | less := Nat.le_total (u.chain p) (w.chain p)
    · exact ⟨w, .tail _ hw, (Nat.max_eq_right less).symm⟩
    · exact ⟨u, .head _, (Nat.max_eq_left less).symm⟩

/-- A chain of some nodes is one of more nodes as well. -/
theorem chain_mono (imp : ∀ k, p k → q k) (t : Tree) : t.chain p ≤ t.chain q := by
  induction t using Tree.induction with
  | node t cs ih =>
    have below : chainAll p cs ≤ chainAll q cs :=
      chainAll_le.2 fun c hc => Nat.le_trans (ih c hc) (chain_le_chainAll hc)
    have root : (p t.kind).toNat ≤ (q t.kind).toNat := by
      cases h : p t.kind with
      | false => exact Nat.zero_le _
      | true => exact Nat.le_of_eq (congrArg Bool.toNat (imp _ h).symm)
    simp only [chain_node]
    omega

/-- A chain of nodes that are of one of two sorts is no longer than chains of both together. -/
theorem chain_le_add (p q : Kind → Bool) (t : Tree) :
    t.chain (fun k => p k || q k) ≤ t.chain p + t.chain q := by
  induction t using Tree.induction with
  | node t cs ih =>
    have below : chainAll (fun k => p k || q k) cs ≤ chainAll p cs + chainAll q cs :=
      chainAll_le.2 fun c hc =>
        Nat.le_trans (ih c hc) (Nat.add_le_add (chain_le_chainAll hc) (chain_le_chainAll hc))
    have root : (p t.kind || q t.kind).toNat ≤ (p t.kind).toNat + (q t.kind).toNat := by
      cases p t.kind <;> cases q t.kind <;> decide
    simp only [chain_node]
    omega

end Tree

/-- Chains go by the kinds of nodes alone. -/
theorem chain_recast (φ : Recast) (p : Kind → Bool) (t : Tree) :
    (recast φ t).chain p = t.chain p := by
  induction t using Tree.induction with
  | node token cs ih =>
    have below : Tree.chainAll p (recast φ cs) = Tree.chainAll p cs := by
      induction cs with
      | nil => rfl
      | cons c cs others =>
        obtain ⟨first, ih⟩ := List.forall_mem_cons.1 ih
        rw [recast_cons, Tree.chainAll_cons, Tree.chainAll_cons, first, others ih]
    rw [recast_node, Tree.chain_node, Tree.chain_node, below]
    rfl

end AresSyntax
