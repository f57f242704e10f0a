import AresSyntax.Proofs.Tree.Paths
import AresSyntax.Proofs.Scan.Longest

/-!
A tree of plain texts is read back from its nested lists in one way only.

* `Outline`, `Tree.outline`: the texts of a tree, without the tokens that show them;
* `Plain`: the texts that neither end a list nor start one;
* `Tree.outline_of_render`: what is written of a tree gives its texts, whatever stands behind it.
-/
namespace AresSyntax

/-- A tree of texts. -/
inductive Outline
  | node (text : String) (below : List Outline)

/-- Holds for the texts that are not empty and have no blank and no parenthesis in them. -/
def Plain (s : String) : Prop :=
  s ≠ "" ∧ ' ' ∉ s.toList ∧ '(' ∉ s.toList ∧ ')' ∉ s.toList

instance (s : String) : Decidable (Plain s) := inferInstanceAs (Decidable (_ ∧ _))

namespace Tree

mutual

/-- The texts of a tree. -/
def outline : Tree → Outline
  | node t cs => .node t.text (outlineEach cs)

/-- The texts of several trees, for each by themselves. -/
def outlineEach : List Tree → List Outline
  | [] => []
  | c :: cs => c.outline :: outlineEach cs

end

/-- Every node of the tree has a plain text. -/
def PlainTexts (t : Tree) : Prop := ∀ n ∈ t.walk, Plain n.text

theorem plainTexts_node {t : Token} {cs : List Tree} :
    (node t cs).PlainTexts ↔ Plain t.text ∧ ∀ c ∈ cs, c.PlainTexts := by
  simp only [PlainTexts, walk, List.forall_mem_cons, mem_walkAll]
  constructor
  · rintro ⟨root, below⟩
    exact ⟨root, fun c hc n hn => below n ⟨c, hc, hn⟩⟩
  · rintro ⟨root, below⟩
    refine ⟨root, ?_⟩
    rintro n ⟨c, hc, hn⟩
    exact below c hc n hn

end Tree

/-- Holds for what may stand behind a text or a list: a blank, the end of a list, or nothing. -/
def Closes (cs : List Char) : Prop := ∀ c ∈ cs.head?, c = ' ' ∨ c = ')'

theorem closes_nil : Closes [] := fun _ none => nomatch none

theorem closes_blank (cs : List Char) : Closes (' ' :: cs) := by
  rintro c ⟨⟩
  exact .inl rfl

theorem closes_closing (cs : List Char) : Closes (')' :: cs) := by
  rintro c ⟨⟩
  exact .inr rfl

namespace Plain

variable {s s' : String} {xs ys : List Char}

theorem exists_cons (h : Plain s) : ∃ c cs, s.toList = c :: cs ∧ c ≠ '(' := by
  obtain ⟨c, cs, text⟩ := List.exists_cons_of_ne_nil (mt String.toList_eq_nil_iff.1 h.1)
  refine ⟨c, cs, text, ?_⟩
  rintro rfl
  exact h.2.2.1 (text ▸ List.mem_cons_self)

/-- A plain text ends where something closes it. -/
theorem run (h : Plain s) (closes : Closes xs) :
    Lexeme.Run (fun c => c ≠ ' ' ∧ c ≠ ')') s.toList xs where
  inside c hc := by
    rw [decide_eq_true_eq]
    constructor
    · rintro rfl
      exact h.2.1 hc
    · rintro rfl
      exact h.2.2.2 hc
  stop c hc := by
    obtain rfl | rfl := closes c hc <;> decide

theorem unique (h : Plain s) (h' : Plain s') (closes : Closes xs) (closes' : Closes ys)
    (same : s.toList ++ xs = s'.toList ++ ys) : s = s' ∧ xs = ys := by
  have text : s.toList = s'.toList := by
    rw [← (h.run closes).takeWhile_eq, same, (h'.run closes').takeWhile_eq]
  refine ⟨String.toList_inj.1 text, ?_⟩
  rw [text] at same
  exact List.append_cancel_left same

end Plain

namespace Tree

theorem render_leaf (t : Token) (xs : List Char) :
    (node t []).render.toList ++ xs = t.text.toList ++ xs := by
  rw [render]

theorem render_node (t : Token) (c : Tree) (cs : List Tree) (xs : List Char) :
    (node t (c :: cs)).render.toList ++ xs =
      '(' :: (t.text.toList ++ ((renderEach (c :: cs)).toList ++ ')' :: xs)) := by
  simp [render]

theorem renderEach_cons (c : Tree) (cs : List Tree) (xs : List Char) :
    (renderEach (c :: cs)).toList ++ xs =
      ' ' :: (c.render.toList ++ ((renderEach cs).toList ++ xs)) := by
  simp [renderEach]

/-- Behind a child stand the next one or the end of the list. -/
theorem closes_renderEach (cs : List Tree) (xs : List Char) :
    Closes ((renderEach cs).toList ++ ')' :: xs) := by
  cases cs with
  | nil => exact closes_closing xs
  | cons c cs => exact renderEach_cons c cs _ ▸ closes_blank _

variable {xs ys : List Char}

/-- The children of a node are read in one way if each of them is. -/
theorem outlineEach_of_renderEach {cs ds : List Tree}
    (ih : ∀ c ∈ cs, ∀ (d : Tree) (xs ys : List Char), c.PlainTexts → d.PlainTexts → Closes xs →
      Closes ys → c.render.toList ++ xs = d.render.toList ++ ys → c.outline = d.outline ∧ xs = ys)
    (plain : ∀ c ∈ cs, c.PlainTexts) (plain' : ∀ d ∈ ds, d.PlainTexts)
    (same : (renderEach cs).toList ++ ')' :: xs = (renderEach ds).toList ++ ')' :: ys) :
    outlineEach cs = outlineEach ds ∧ xs = ys := by
  induction cs generalizing ds with
  | nil =>
    cases ds with
    | nil => exact ⟨rfl, (List.cons.inj same).2⟩
    | cons d ds =>
      rw [renderEach_cons] at same
      cases same
  | cons c cs more =>
    cases ds with
    | nil =>
      rw [renderEach_cons] at same
      cases same
    | cons d ds =>
      rw [List.forall_mem_cons] at ih plain plain'
      rw [renderEach_cons, renderEach_cons] at same
      obtain ⟨first, behind⟩ := ih.1 d _ _ plain.1 plain'.1 (closes_renderEach cs xs)
        (closes_renderEach ds ys) (List.cons.inj same).2
      obtain ⟨others, rest⟩ := more ih.2 plain.2 plain'.2 behind
      refine ⟨?_, rest⟩
      rw [outlineEach, outlineEach, first, others]

/-- What is written of a tree of plain texts gives these texts and what stands behind it: a leaf
does not start with the parenthesis that any other node starts with. -/
theorem outline_of_render {t u : Tree} (plain : t.PlainTexts) (plain' : u.PlainTexts)
    (closes : Closes xs) (closes' : Closes ys)
    (same : t.render.toList ++ xs = u.render.toList ++ ys) : t.outline = u.outline ∧ xs = ys := by
  induction t using Tree.induction generalizing u xs ys with
  | node t cs ih =>
    obtain ⟨u, ds⟩ := u
    obtain ⟨text, below⟩ := plainTexts_node.1 plain
    obtain ⟨text', below'⟩ := plainTexts_node.1 plain'
    cases cs with
    | nil =>
      obtain ⟨a, as, start, other⟩ := text.exists_cons
      cases ds with
      | nil =>
        rw [render_leaf, render_leaf] at same
        obtain ⟨equal, rest⟩ := text.unique text' closes closes' same
        rw [outline, outline, equal]
        exact ⟨rfl, rest⟩
      | cons d ds =>
        rw [render_leaf, render_node, start] at same
        exact absurd (List.cons.inj same).1 other
    | cons c cs =>
      cases ds with
      | nil =>
        obtain ⟨a, as, start, other⟩ := text'.exists_cons
        rw [render_leaf, render_node, start] at same
        exact absurd (List.cons.inj same).1.symm other
      | cons d ds =>
        rw [render_node, render_node] at same
        obtain ⟨equal, behind⟩ := text.unique text' (closes_renderEach (c :: cs) xs)
          (closes_renderEach (d :: ds) ys) (List.cons.inj same).2
        obtain ⟨children, rest⟩ := outlineEach_of_renderEach
          (fun c hc d xs ys plain plain' => ih c hc plain plain') below below' behind
        rw [outline, outline, equal, children]
        exact ⟨rfl, rest⟩

end Tree
end AresSyntax
