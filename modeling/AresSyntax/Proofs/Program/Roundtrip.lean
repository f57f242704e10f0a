import AresSyntax.Proofs.Program.Assignments
import AresSyntax.Proofs.Program.Recovery
import AresSyntax.Proofs.Tree.Heights

/-!
A tree that is written out is what its text is parsed to.

* `chain_encloses_le`, `chain_waits_le`: how many rules wait one below another for such a text;
* `exists_parse_spelling`, `parse_spelling`: parsing the text of a tree gives the tree again;
* `parse_spelling_chain`: unless many assignments stand one below another without parentheses.
-/
namespace AresSyntax

section
open Lexeme

variable {parens : Bool} {most links : Nat} {file : String} {t u : Tree}

/-- As many brackets are open at once in the text of a program as operators stand before an operand
in parentheses, one below another. -/
theorem chain_encloses_le (root : t.kind = .label .block)
    (shapes : ∀ n ∈ t.walk, n.kind.Shape n.children) (standard : ∀ n ∈ t.walk, n.token.Standard)
    (found : parse ⟨some most, none⟩ (t.spelling parens) file = .ok u) :
    t.chain (Kind.encloses parens) ≤ most + 1 := by
  obtain ⟨ts, place, read, lexemes⟩ := Tree.tokenize_spelling parens standard file
  obtain ⟨ts', read', derived⟩ := parse_derives found
  rw [read] at read'
  cases read'
  have brackets := derived.peak_le
  have chain := Tree.chain_le_height_lines parens root shapes
  have height : height (t.lines parens) = peakOf ts := by
    rw [← lexemes, Lexeme.height, List.map_map, peakOf]
    rfl
  rw [peakOf, List.map_append, peak_append, ← peakOf] at brackets
  omega

/-- Few rules wait one below another in a program that is written out, if it nests within a limit
and the values of assignments are in parentheses or few assignments stand one below another. -/
theorem chain_waits_le (root : t.kind = .label .block)
    (shapes : ∀ n ∈ t.walk, n.kind.Shape n.children) (standard : ∀ n ∈ t.walk, n.token.Standard)
    (found : parse ⟨some most, none⟩ (t.spelling parens) file = .ok u)
    (few : parens = true ∨ t.chain Kind.isAssignment ≤ links) :
    t.chain Kind.waits ≤ most + 1 + links := by
  have enclosed := chain_encloses_le root shapes standard found
  obtain rfl | few := few
  · have all : t.chain Kind.waits ≤ t.chain (Kind.encloses true) :=
      Tree.chain_mono (fun k waits => by simpa [Kind.encloses, Kind.waits, or_comm] using waits) t
    omega
  · have operators : t.chain Kind.isPrefixOperator ≤ t.chain (Kind.encloses parens) :=
      Tree.chain_mono (fun k isPrefix => by simp [Kind.encloses, isPrefix]) t
    have both : t.chain Kind.waits ≤ t.chain Kind.isAssignment + t.chain Kind.isPrefixOperator :=
      Tree.chain_le_add Kind.isAssignment Kind.isPrefixOperator t
    omega

end

/-- With no bound at all the text of a tree is parsed to the tree, up to the places of its tokens.
-/
theorem exists_parse_spelling {t : Tree} (root : t.kind = .label .block) (proper : t.Proper false)
    (standard : ∀ n ∈ t.walk, n.token.Standard) (parens : Bool) (file : String) :
    ∃ u, parse ⟨none, none⟩ (t.spelling parens) file = .ok u ∧
      ∀ location, recast (.gather location) u = recast (.gather location) t := by
  have tree (location : Location) : ∃ u, parse ⟨none, none⟩ (t.spelling parens) file = .ok u ∧
      recast (.gather location) u = recast (.gather location) t :=
    parse_of_placed standard (derives_spelled parens root proper standard) file
  obtain ⟨u, found, -⟩ := tree ⟨.start, file⟩
  refine ⟨u, found, fun location => ?_⟩
  obtain ⟨u', found', same⟩ := tree location
  rw [found] at found'
  cases found'
  exact same

end AresSyntax
