import Mathlib.Data.List.Basic
import AresSyntax.Grammar.Program
import AresSyntax.Proofs.Tree.Paths
import AresSyntax.Tree.Visitor

/-!
Visits record what a walk would select.

* `Tree.lineages`: the nodes of a walk, each with its ancestors;
* `Visitor.Reaches`: the nodes that a visit records, from what stands above them;
* `Visitor.run_visit`: what a visit returns and records;
* `Visitor.visit_selects`: visits and walks agree.
-/
namespace AresSyntax

namespace Tree

mutual

/-- The nodes of a tree in preorder, each with its ancestors from the root on. The same tree may
stand at several places, with other ancestors at each. -/
def lineages : Tree → List (List Tree × Tree)
  | .node t cs => ([], .node t cs) :: (lineagesAll cs).map fun p => (.node t cs :: p.1, p.2)

/-- The nodes of several trees with their ancestors, one tree after the other. -/
def lineagesAll : List Tree → List (List Tree × Tree)
  | [] => []
  | c :: cs => c.lineages ++ lineagesAll cs

end

theorem walkAll_eq_flatMap (cs : List Tree) : walkAll cs = cs.flatMap walk := by
  induction cs with
  | nil => rfl
  | cons c cs ih => rw [walkAll, ih, List.flatMap_cons]

theorem lineagesAll_eq_flatMap (cs : List Tree) : lineagesAll cs = cs.flatMap lineages := by
  induction cs with
  | nil => rfl
  | cons c cs ih => rw [lineagesAll, ih, List.flatMap_cons]

/-- Without the ancestors this is the walk. -/
theorem lineages_map_snd (t : Tree) : t.lineages.map Prod.snd = t.walk := by
  induction t using Tree.induction with
  | node token children ih =>
    have below : (lineagesAll children).map Prod.snd = walkAll children := by
      rw [lineagesAll_eq_flatMap, walkAll_eq_flatMap, List.map_flatMap]
      exact List.flatMap_congr ih
    rw [lineages, walk, List.map_cons, List.map_map, ← below]
    rfl

/-- The ancestors are those on a path to the node. -/
theorem mem_lineages {t n : Tree} {as : List Tree} : (as, n) ∈ t.lineages ↔ t.Path as n := by
  induction t using Tree.induction generalizing as n with
  | node token children ih =>
    rw [lineages, lineagesAll_eq_flatMap, List.mem_cons, List.mem_map]
    constructor
    · rintro (same | ⟨⟨bs, d⟩, below, same⟩)
      · cases same
        exact .root
      · cases same
        obtain ⟨c, child, path⟩ := List.mem_flatMap.1 below
        exact .inner child ((ih c child).1 path)
    · intro path
      cases path with
      | root => exact .inl rfl
      | @inner _ c _ bs child path =>
        exact .inr ⟨(bs, n), List.mem_flatMap.2 ⟨c, child, (ih c child).2 path⟩, rfl⟩

end Tree

namespace Visitor

/-- Holds for a node that is recorded, if none of its ancestors keeps the visit from it. -/
def Reaches (v : Visitor) (p : List Tree × Tree) : Prop :=
  v.records p.2.kind ∧ ∀ a ∈ p.1, ¬ v.stops a.kind

instance (v : Visitor) : DecidablePred v.Reaches :=
  fun _ => inferInstanceAs (Decidable (_ ∧ _))

/-- The nodes of the walk that a visit reaches. -/
def selected (v : Visitor) (t : Tree) : List Tree := (t.lineages.filter v.Reaches).map Prod.snd

variable {α : Type} (v : Visitor) (value : Tree → α)

theorem reaches_root {t : Tree} : v.Reaches ([], t) ↔ v.records t.kind :=
  and_iff_left (List.forall_mem_nil _)

/-- A node further down is reached if the root lets the visit go on. -/
theorem reaches_below {t : Tree} {p : List Tree × Tree} :
    v.Reaches (t :: p.1, p.2) ↔ ¬ v.stops t.kind ∧ v.Reaches p := by
  rw [Reaches, List.forall_mem_cons]
  exact and_left_comm

/-- Below a node that stops the visit nothing is reached, and below any other one what is reached
from the children. -/
theorem selected_node (token : Token) (children : List Tree) :
    v.selected (.node token children) =
      (if v.records token.kind then [.node token children] else []) ++
        if v.stops token.kind then [] else children.flatMap v.selected := by
  have inside : ((Tree.lineagesAll children).filter v.Reaches).map Prod.snd =
      children.flatMap v.selected := by
    rw [Tree.lineagesAll_eq_flatMap, List.filter_flatMap, List.map_flatMap]
    rfl
  have below : (((Tree.lineagesAll children).map fun p =>
      (Tree.node token children :: p.1, p.2)).filter v.Reaches).map Prod.snd =
        if v.stops token.kind then [] else children.flatMap v.selected := by
    rw [List.filter_map, List.map_map, ← inside]
    by_cases stops : v.stops token.kind
    · simp [stops, Function.comp_def, reaches_below, Tree.kind, Tree.token]
    · simp [stops, Function.comp_def, reaches_below, Tree.kind, Tree.token]
  have root : v.Reaches ([], .node token children) ↔ v.records token.kind := v.reaches_root
  rw [selected, Tree.lineages, List.filter_cons, ← below]
  by_cases records : v.records token.kind
  · simp [root, records]
  · simp [root, records]

/-- A visit to a node, as the handlers have it. -/
theorem run_visit_node (token : Token) (children before : List Tree) :
    ((Tree.node token children).visit (v.handlers value)).run before =
      if v.stops token.kind then
        (some (value (.node token children)), before ++ [.node token children])
      else if v.descends token.kind then
        (some (value (.node token children)),
          ((Tree.visitEach (v.handlers value) children).run (before ++ [.node token children])).2)
      else (none, ((Tree.visitEach (v.handlers value) children).run before).2) := by
  rw [Tree.visit, handlers]
  by_cases stops : v.stops token.kind
  · simp only [stops, if_true]
    rfl
  · by_cases descends : v.descends token.kind
    · simp only [stops, descends, if_true, Bool.false_eq_true, if_false]
      rfl
    · simp only [stops, descends, Bool.false_eq_true, if_false]
      rfl

/-- Each of several trees is visited with what was recorded before it. -/
theorem run_visitEach_cons (c : Tree) (cs before : List Tree) :
    (Tree.visitEach (v.handlers value) (c :: cs)).run before =
      (Tree.visitEach (v.handlers value) cs).run ((c.visit (v.handlers value)).run before).2 :=
  rfl

/-- What a visit returns, and what is recorded behind it. -/
theorem run_visit (t : Tree) (before : List Tree) :
    (t.visit (v.handlers value)).run before =
      (if v.records t.kind then some (value t) else none, before ++ v.selected t) := by
  induction t using Tree.induction generalizing before with
  | node token children ih =>
    have each (cs : List Tree) (inside : ∀ c ∈ cs, c ∈ children) (before : List Tree) :
        (Tree.visitEach (v.handlers value) cs).run before =
          ((), before ++ cs.flatMap v.selected) := by
      induction cs generalizing before with
      | nil => exact congrArg (Prod.mk ()) (List.append_nil before).symm
      | cons c cs more =>
        obtain ⟨child, others⟩ := List.forall_mem_cons.1 inside
        rw [run_visitEach_cons, ih c child, more others, List.flatMap_cons, List.append_assoc]
    have below := each children fun _ child => child
    have kind : (Tree.node token children).kind = token.kind := rfl
    rw [run_visit_node, selected_node, below, below, kind]
    by_cases stops : v.stops token.kind
    · simp [stops, records]
    · by_cases descends : v.descends token.kind
      · simp [stops, descends, records]
      · simp [stops, descends, records]

/-- A visitor that stops nowhere reaches all nodes of its kinds. -/
theorem selected_of_open (d : Kind → Bool) (t : Tree) :
    selected ⟨d, fun _ => false⟩ t = t.walk.filter (d ·.kind) := by
  rw [← t.lineages_map_snd, List.filter_map, selected]
  congr 1
  refine List.filter_congr fun p _ => ?_
  simp [Reaches, records]

/-- Visits to several trees one by one record what is reached in each of them. -/
theorem run_mapM_visit (ts before : List Tree) :
    ((ts.mapM (Tree.visit (v.handlers value))).run before).2 =
      before ++ ts.flatMap v.selected := by
  induction ts generalizing before with
  | nil => exact (List.append_nil before).symm
  | cons t ts ih =>
    have first : ((List.mapM (Tree.visit (v.handlers value)) (t :: ts)).run before).2 =
        ((ts.mapM (Tree.visit (v.handlers value))).run
          ((t.visit (v.handlers value)).run before).2).2 := by
      rw [List.mapM_cons]
      rfl
    rw [first, run_visit, ih, List.flatMap_cons, List.append_assoc]

/-- A visit returns the value of the handler for the kind of the root, if there is one, and records
the nodes of the walk that are of a recorded kind and have no ancestor at which the visit stops, in
the order of the walk. From a root without a handler it records what visits to the children do. A
visitor that stops nowhere records the nodes of its kinds, and one that is made for a single kind
records those that a search for the kind finds. -/
theorem visit_selects (t : Tree) (before : List Tree) :
    (t.lineages.map Prod.snd = t.walk ∧ ∀ as n, (as, n) ∈ t.lineages ↔ t.Path as n) ∧
    (t.visit (v.handlers value)).run before =
      (if v.records t.kind then some (value t) else none,
        before ++ (t.lineages.filter fun p =>
          v.records p.2.kind ∧ ∀ a ∈ p.1, ¬ v.stops a.kind).map Prod.snd) ∧
    (v.records t.kind = false →
      ((t.children.mapM (Tree.visit (v.handlers value))).run before).2 =
        ((t.visit (v.handlers value)).run before).2) ∧
    (∀ d : Kind → Bool, ((t.visit (handlers ⟨d, fun _ => false⟩ value)).run before).2 =
      before ++ t.walk.filter (d ·.kind)) ∧
    ∀ k : Kind, ((t.visit (handlers ⟨(· = k), fun _ => false⟩ value)).run before).2 =
      before ++ t.findAll k := by
  have free (d : Kind → Bool) : ((t.visit (handlers ⟨d, fun _ => false⟩ value)).run before).2 =
      before ++ t.walk.filter (d ·.kind) := by
    rw [run_visit, selected_of_open]
  refine ⟨⟨t.lineages_map_snd, fun as n => Tree.mem_lineages⟩, run_visit v value t before, ?_,
    free, fun k => free (· = k)⟩
  intro other
  obtain ⟨token, children⟩ := t
  replace other : v.records token.kind = false := other
  have goesOn : v.stops token.kind = false := (Bool.or_eq_false_iff.1 other).2
  rw [run_visit, selected_node, other, goesOn]
  exact run_mapM_visit v value children before

/-- Names and calls, with nothing from inside of the calls. -/
theorem visit_selects_calls : ∃ (v : Visitor) (t : Tree),
    parse .standard "x = f(a, g(b))\nz" "f.ares" = .ok t ∧ v.records t.kind = false ∧
      ((t.children.mapM (Tree.visit (v.handlers Tree.text))).run []).2.map Tree.text =
        ["x", "CALL", "z"] := by
  let v : Visitor := ⟨(· = .literal .ident), (· = .label .call)⟩
  have shown : (parse .standard "x = f(a, g(b))\nz" "f.ares").toOption.map
      (fun t => (v.records t.kind, (v.visit t).map Tree.text)) =
        some (false, ["x", "CALL", "z"]) := by
    decide +kernel
  cases found : parse .standard "x = f(a, g(b))\nz" "f.ares" with
  | error f =>
    rw [found] at shown
    cases shown
  | ok t =>
    rw [found] at shown
    obtain ⟨root, recorded⟩ := Prod.mk.inj (Option.some.inj shown)
    obtain ⟨-, -, children, -⟩ := visit_selects v Tree.text t []
    exact ⟨v, t, rfl, root, (congrArg (List.map Tree.text) (children root)).trans recorded⟩

end Visitor
end AresSyntax
