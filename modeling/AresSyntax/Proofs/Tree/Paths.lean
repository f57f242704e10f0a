import AresSyntax.Tree.Basic

/-!
The nodes of a tree with what stands above them.

* `Tree.Path`: a node of a tree, with its ancestors from the root on;
* `Tree.mem_walk`: the walk through a tree visits the nodes that have a path.
-/
namespace AresSyntax.Tree

/-- A statement about all trees follows if it goes from the children to the node above them. -/
@[elab_as_elim] theorem induction {motive : Tree → Prop}
    (node : ∀ token children, (∀ c ∈ children, motive c) → motive (.node token children))
    (t : Tree) : motive t := by
  obtain ⟨token, children⟩ := t
  exact node token children fun c _ => induction node c

/-- `t.Path as n`: `n` is a node of `t` with the ancestors `as`, the root first. -/
inductive Path : Tree → List Tree → Tree → Prop
  | root {t : Tree} : Path t [] t
  | inner {t c n : Tree} {as : List Tree} (child : c ∈ t.children) (path : Path c as n) :
      Path t (t :: as) n

theorem mem_walkAll {n : Tree} {cs : List Tree} : n ∈ walkAll cs ↔ ∃ c ∈ cs, n ∈ c.walk := by
  induction cs with
  | nil => simp [walkAll]
  | cons c cs ih => simp [walkAll, ih]

@[simp] theorem walkAll_append (cs ds : List Tree) :
    walkAll (cs ++ ds) = walkAll cs ++ walkAll ds := by
  induction cs with
  | nil => rfl
  | cons c cs ih => simp [walkAll, ih]

/-- The walk through a tree visits every node of it and nothing else. -/
theorem mem_walk {t n : Tree} : n ∈ t.walk ↔ ∃ as, t.Path as n := by
  induction t using Tree.induction with
  | node token children ih =>
    rw [walk, List.mem_cons, mem_walkAll]
    constructor
    · rintro (rfl | ⟨c, child, visited⟩)
      · exact ⟨[], .root⟩
      · obtain ⟨as, path⟩ := (ih c child).1 visited
        exact ⟨_, .inner child path⟩
    · rintro ⟨as, path⟩
      cases path with
      | root => exact .inl rfl
      | inner child path => exact .inr ⟨_, child, (ih _ child).2 ⟨_, path⟩⟩

/-- Above every node but the root stands the node that it is a child of. -/
theorem Path.exists_parent {t n : Tree} {as : List Tree} (h : t.Path as n) :
    n = t ∧ as = [] ∨ ∃ p bs, as.getLast? = some p ∧ n ∈ p.children ∧ t.Path bs p := by
  induction h with
  | root => exact .inl ⟨rfl, rfl⟩
  | @inner t c n as child path ih =>
    obtain ⟨rfl, rfl⟩ | ⟨p, bs, last, below, above⟩ := ih
    · exact .inr ⟨t, [], rfl, child, .root⟩
    · refine .inr ⟨p, t :: bs, ?_, below, .inner child above⟩
      rw [List.getLast?_cons, last]
      rfl

end AresSyntax.Tree
