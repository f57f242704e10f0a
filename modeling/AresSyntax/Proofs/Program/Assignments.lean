import AresSyntax.Proofs.Program.Nesting
import AresSyntax.Proofs.Program.Phrases
import AresSyntax.Proofs.Program.Stacks

/-!
Assignments that have assignments for their values. Written without parentheses around the values
they nest no deeper than a single one does, but each waits for the next.

* `Tree.assignments`, `Tree.assigning`: any number of such assignments, and a program of them;
* `whole_assignments`: they are an expression that stays within one level more;
* `assigning_nests`: the program nests two levels deep;
* `assigning_refused`: it is refused where the call stack has no room for all of them.
-/
namespace AresSyntax

namespace Lexeme

/-- A name. -/
def ident : Lexeme := ⟨.literal .ident, "x", none⟩

/-- The sign of a plain assignment. -/
def assign : Lexeme := ⟨.assign .assign, "=", none⟩

theorem genuine_ident : ident.Genuine :=
  ⟨"x", "f.ares", 0, ident.token ⟨.start, "f.ares"⟩, by decide +kernel, rfl⟩

theorem genuine_assign : assign.Genuine :=
  ⟨"=", "f.ares", 0, assign.token ⟨.start, "f.ares"⟩, by decide +kernel, rfl⟩

end Lexeme

namespace Tree

/-- A tree of `n` assignments, of which each has the next one for its value. -/
def assignments (location : Location) : Nat → Tree
  | 0 => leaf (Lexeme.ident.token location)
  | n + 1 => node (Lexeme.assign.token location)
    [leaf (Lexeme.ident.token location), assignments location n]

/-- The program of such a tree alone. -/
def assigning (location : Location) (n : Nat) : Tree :=
  node (Label.block.token location) [assignments location n]

end Tree

variable {location : Location} {most stack : Nat} {file : String}

/-- Each assignment waits for the next one. -/
theorem chain_assignments (location : Location) (n : Nat) :
    (Tree.assignments location n).chain Kind.waits = n := by
  induction n with
  | zero => rfl
  | succ n ih =>
    have own : ((Lexeme.assign.token location).kind.waits).toNat = 1 := rfl
    have target : (Tree.leaf (Lexeme.ident.token location)).chain Kind.waits = 0 := rfl
    rw [Tree.assignments, Tree.chain_node, Tree.chainAll_cons, Tree.chainAll_cons, ih,
      Tree.chainAll_nil, own, target]
    omega

theorem chain_assigning (location : Location) (n : Nat) :
    (Tree.assigning location n).chain Kind.waits = n := by
  rw [Tree.assigning, Tree.chain_waits_label, Tree.chainAll_cons, chain_assignments,
    Tree.chainAll_nil, Nat.max_zero]

theorem isExpression_assignments (location : Location) (n : Nat) :
    (Tree.assignments location n).kind.isExpression := by
  cases n <;> rfl

/-- The nodes are those of a tree that can be written out. -/
theorem walk_assignments (location : Location) (n : Nat) :
    ∀ m ∈ (Tree.assignments location n).walk,
      m.kind.Shape m.children ∧ m.token.Standard ∧ m.kind ≠ .keyword .returnWord := by
  have name : ∀ m ∈ (Tree.leaf (Lexeme.ident.token location)).walk,
      m.kind.Shape m.children ∧ m.token.Standard ∧ m.kind ≠ .keyword .returnWord := by
    rw [Tree.leaf, Tree.walk, Tree.walkAll, List.forall_mem_singleton]
    exact ⟨rfl, Lexeme.genuine_ident, Kind.noConfusion⟩
  induction n with
  | zero => exact name
  | succ n ih =>
    have value := isExpression_assignments location n
    simp only [Tree.assignments, Tree.walk, Tree.walkAll, List.append_nil, List.forall_mem_cons,
      List.forall_mem_append]
    exact ⟨⟨⟨.inl rfl, value⟩, Lexeme.genuine_assign, Kind.noConfusion⟩, name, ih⟩

theorem whole_assignments {c : Context} (within : c.deeper.Within (some most)) (n : Nat) :
    Whole (some most) location .assignment c ((Tree.assignments location n).spelled false)
      [Tree.assignments location n] := by
  have name (d : Context) : Whole (some most) location .assignment d [Lexeme.ident]
      [.leaf (Lexeme.ident.token location)] :=
    (Whole.literal (t := Lexeme.ident.token location) rfl).atom
  induction n with
  | zero => exact name c
  | succ n ih =>
    exact Whole.assign (t := Lexeme.assign.token location) rfl (.inl rfl) within (name _) ih

theorem walk_assigning (location : Location) (n : Nat) :
    ∀ m ∈ (Tree.assigning location n).walk,
      m.kind.Shape m.children ∧ m.token.Standard ∧ m.kind ≠ .keyword .returnWord := by
  have value := isExpression_assignments location n
  simp only [Tree.assigning, Tree.walk, Tree.walkAll, List.append_nil, List.forall_mem_cons]
  exact ⟨⟨List.forall_mem_singleton.2 (.inr value), ⟨rfl, rfl⟩, Kind.noConfusion⟩,
    walk_assignments location n⟩

/-- The only statement of the program is one level deep, and the targets in it two. -/
theorem derives_assigning (enough : 2 ≤ most) (n : Nat) :
    DerivesProgram (some most)
      (placed location ((Tree.assigning location n).lines false) ++ [.atEnd location])
      (Tree.assigning location n) := by
  have outer : Context.top.deeper.Within (some most) := by
    rintro m ⟨⟩
    exact Nat.le_of_succ_le enough
  have inner : Context.top.deeper.deeper.Within (some most) := by
    rintro m ⟨⟩
    exact enough
  have lines : (Tree.assigning location n).lines false =
      (Tree.assignments location n).spelled false := by
    simp [Tree.assigning, Tree.lines, Tree.children, Lexeme.separated]
  rw [lines]
  exact Whole.program fun rest behind =>
    .lastStatement (.value (.expression outer (whole_assignments inner n rest behind)))

/-- With no bound on the call stack the program has a tree, with as many assignments in it. -/
theorem parse_assigning (location : Location) (enough : 2 ≤ most) (n : Nat) (file : String) :
    ∃ u, parse ⟨some most, none⟩ ((Tree.assigning location n).spelling false) file = .ok u ∧
      u.chain Kind.waits = n := by
  have derived : DerivesProgram (some most) _ (Tree.assigning location n) :=
    derives_assigning enough n
  obtain ⟨u, found, same⟩ :=
    parse_of_placed (fun m hm => (walk_assigning location n m hm).2.1) derived file
  refine ⟨u, found, ?_⟩
  rw [← chain_recast (.gather location), same, chain_assigning]

/-- The program nests two levels deep, however many assignments it has. -/
theorem assigning_nests (location : Location) (enough : 2 ≤ most) (n : Nat) (file : String) :
    NestsWithin most ((Tree.assigning location n).spelling false) file := by
  obtain ⟨u, found, -⟩ := parse_assigning location enough n file
  exact (parse_limited.1 found).2

/-- The program is refused if it has more assignments than the call stack has room for. -/
theorem assigning_refused (location : Location) (enough : 2 ≤ most) {n : Nat} (long : stack < n)
    (file : String) : ∃ e,
      parse ⟨some most, some stack⟩ ((Tree.assigning location n).spelling false) file =
        .error (.grammar .nestedTooDeeply e) := by
  obtain ⟨u, found, chain⟩ := parse_assigning location enough n file
  exact parse_refused_of_chain found (chain ▸ long)

end AresSyntax
