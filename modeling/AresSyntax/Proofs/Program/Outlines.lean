import AresSyntax.Proofs.Tree.Rendering
import AresSyntax.Proofs.Tree.Tokens
import AresSyntax.Proofs.Program.Commands

/-!
What the command prints tells two sources without string literals apart, as far as the texts of
their trees go.

* `StringFree`: a source without string literals;
* `Lexeme.Prescribed.plain`: the tokens that trees have a node for show plain texts, but for
  strings;
* `Derives.labelled`: the labels of a tree show their mnemonics;
* `render_unambiguous`: trees of plain texts, those of sources, and what the command prints of them.
-/
namespace AresSyntax

/-- Holds for the sources without string literals. -/
def StringFree (text file : String) : Prop :=
  ∀ ts, tokenize text file = .ok ts → ∀ t ∈ ts, t.kind ≠ .literal .string

theorem stringFree_of_all {text file : String}
    (h : (tokenize text file).toOption.map (·.all (·.kind ≠ .literal .string)) = some true) :
    StringFree text file := by
  intro ts read t ht
  rw [read] at h
  exact of_decide_eq_true (List.all_eq_true.1 (Option.some.inj h) t ht)

/-! ## The texts of tokens -/

/-- A text is plain if all of its characters are of a class without blanks and parentheses. -/
theorem Plain.ofList {p : Char → Bool} {cs : List Char}
    (outside : p ' ' = false ∧ p '(' = false ∧ p ')' = false) (nonempty : cs ≠ [])
    (inside : ∀ c ∈ cs, p c) : Plain (String.ofList cs) := by
  have absent : ∀ c, p c = false → c ∉ cs := by
    intro c no hc
    rw [inside c hc] at no
    cases no
  refine ⟨?_, ?_, ?_, ?_⟩
  · rwa [Ne, ← String.toList_eq_nil_iff, String.toList_ofList]
  · rw [String.toList_ofList]
    exact absent _ outside.1
  · rw [String.toList_ofList]
    exact absent _ outside.2.1
  · rw [String.toList_ofList]
    exact absent _ outside.2.2

namespace Lexeme

/-- A lexeme that a tree has a node for shows a plain text, unless it is a string. -/
theorem Prescribed.plain {slice behind : List Char} {l : Lexeme} (h : Prescribed slice behind l)
    (node : l.kind.isKept) (noString : l.kind ≠ .literal .string) : Plain l.text := by
  cases h with
  | ending | lineEnd => cases node
  | word nonempty letters => exact .ofList (by decide) nonempty letters.inside
  | hexadecimal mark nonempty digits =>
    refine .ofList (p := fun c => Text.isHexDigit c || c = 'x' || c = 'X') (by decide) (by simp) ?_
    simp only [List.forall_mem_cons]
    refine ⟨by decide, ?_, ?_⟩
    · obtain rfl | rfl := mark <;> decide
    · intro c hc
      simp [digits.inside c hc]
  | integer nonempty digits => exact .ofList (by decide) nonempty digits.inside
  | float nonempty digits point more =>
    refine .ofList (p := fun c => c.isDigit || c = '.') (by decide) (by simp) ?_
    simp only [List.forall_mem_append, List.forall_mem_cons]
    refine ⟨?_, by decide, ?_⟩
    · intro c hc
      simp [digits c hc]
    · intro c hc
      simp [more.inside c hc]
  | string => exact absurd rfl noString
  | symbol longest =>
    have all : ∀ s ∈ symbols, s.2.isKept → Plain (String.ofList s.1) := by decide +kernel
    exact all _ longest.entry node

end Lexeme

/-! ## The texts of trees -/

namespace Tree

/-- Every label of the tree shows its mnemonic. -/
def Labelled (t : Tree) : Prop := ∀ n ∈ t.walk, ∀ l, n.kind = .label l → n.text = l.mnemonic

theorem Labelled.node {t : Token} {cs : List Tree}
    (root : ∀ l, t.kind = .label l → t.text = l.mnemonic) (below : ∀ c ∈ cs, c.Labelled) :
    (Tree.node t cs).Labelled := by
  intro n hn
  obtain rfl | hn := List.mem_cons.1 hn
  · exact root
  · obtain ⟨c, hc, hn⟩ := mem_walkAll.1 hn
    exact below c hc n hn

/-- A node over some trees whose token is no label. -/
theorem labelled_plain {t : Token} {k : Kind} {cs : List Tree} (kind : t.kind = k)
    (other : ∀ l, k ≠ .label l) (below : ∀ c ∈ cs, c.Labelled) :
    ∀ u ∈ [Tree.node t cs], u.Labelled :=
  List.forall_mem_singleton.2 (.node (fun l same => absurd (kind ▸ same) (other l)) below)

/-- A node over some trees that the grammar labels. -/
theorem labelled_label {l : Label} {location : Location} {cs : List Tree}
    (below : ∀ c ∈ cs, c.Labelled) : ∀ u ∈ [Tree.node (l.token location) cs], u.Labelled := by
  refine List.forall_mem_singleton.2 (.node (fun k same => ?_) below)
  cases same
  rfl

theorem labelled_nil : ∀ u ∈ ([] : List Tree), u.Labelled := fun _ hu => nomatch hu

theorem labelled_cons {u : Tree} {us : List Tree} (first : ∀ v ∈ [u], v.Labelled)
    (others : ∀ v ∈ us, v.Labelled) : ∀ v ∈ u :: us, v.Labelled :=
  List.forall_mem_cons.2 ⟨first u (.head _), others⟩

end Tree

open AresSyntax.Tree

/-- The labels of a phrase's trees show their mnemonics. -/
theorem Derives.labelled {limit : Option Nat} {p : Phrase} {c : Context} {ts rest : List Token}
    {us : List Tree} (h : Derives limit p c ts rest us) : ∀ u ∈ us, u.Labelled := by
  induction h with
  | noStatement | noClause | noOtherwise | noPair | emptyList => exact labelled_nil
  | nextStatement _ _ _ first others => exact labelled_cons first others
  | nextPair _ _ _ _ first others | nextItem _ _ _ _ first others =>
    exact labelled_cons first others
  | nextClause _ _ _ _ condition body others =>
    exact labelled_cons condition (labelled_cons body others)
  | lastStatement _ inner | lastItem _ inner | expression _ _ inner | plain _ inner
  | tighter _ inner | tightest _ inner | unsigned _ inner | untrailed _ inner
  | group _ _ _ _ _ inner | lastPair _ inner | someItems _ inner | otherwise _ _ inner
  | value _ inner => exact inner
  | literal kind | name kind => exact labelled_plain kind nofun labelled_nil
  | leave _ kind => exact labelled_plain kind nofun labelled_nil
  | leaveWith _ kind _ value => exact labelled_plain kind nofun value
  | command kind _ value =>
    obtain kind | kind := kind <;> exact labelled_plain kind nofun value
  | loop kind _ _ condition body =>
    obtain kind | kind := kind <;> exact labelled_plain kind nofun (labelled_cons condition body)
  | iteration kind ident _ _ _ range body =>
    exact labelled_plain kind nofun
      (labelled_cons (labelled_plain ident nofun labelled_nil) (labelled_cons range body))
  | conditional kind _ _ _ _ condition body further last =>
    exact labelled_plain kind nofun (labelled_cons condition
      (labelled_cons body (labelled_cons (labelled_label further) last)))
  | assign _ _ kind _ _ left right | fold _ kind _ _ _ left right =>
    exact labelled_plain kind nofun (labelled_cons left right)
  | negation _ _ _ inner => exact labelled_plain rfl nofun inner
  | signed kind _ _ inner =>
    obtain kind | kind := kind <;> exact labelled_plain kind nofun inner
  | block _ _ _ _ _ _ inner | parameters _ _ _ _ _ inner | array _ _ _ _ _ inner
  | hash _ _ _ _ _ inner => exact labelled_label inner
  | declaration _ ident _ _ params body =>
    exact labelled_label
      (labelled_cons (labelled_plain ident nofun labelled_nil) (labelled_cons params body))
  | subroutine _ _ _ first second | pair _ _ _ _ first second
  | subscript _ _ _ _ _ _ first second | call _ _ _ _ _ _ first second =>
    exact labelled_label (labelled_cons first second)

theorem DerivesProgram.labelled {limit : Option Nat} {ts : List Token} {t : Tree}
    (h : DerivesProgram limit ts t) : t.Labelled := by
  cases h with
  | intro lines inner ending => exact labelled_label inner.labelled _ (.head _)

namespace Token

variable {t : Token} {parts : List (List Token)}

/-- A token that is no label has its text among the tokens of a node. -/
theorem exists_within (other : ∀ l, t.kind ≠ .label l) : ∃ u ∈ t.within parts, u.text = t.text := by
  unfold within
  split
  · exact ⟨t, by simp, rfl⟩
  · exact ⟨t, by simp, rfl⟩
  · rename_i l label
    exact absurd label (other l)
  · exact ⟨{ t with kind := .binary .minus }, List.mem_cons_self, rfl⟩
  · exact ⟨t, List.mem_cons_self, rfl⟩

/-- The tokens of the children are among those of a node. -/
theorem mem_within {part : List Token} {u : Token} (hp : part ∈ parts) (hu : u ∈ part) :
    u ∈ t.within parts := by
  have all : u ∈ parts.flatten := List.mem_flatten.2 ⟨part, hp, hu⟩
  unfold within
  split
  · simp only [List.flatten_cons, List.mem_append, List.mem_cons] at all ⊢
    exact all.imp_right .inr
  · simp only [List.flatten_cons, List.mem_append, List.mem_cons] at all ⊢
    exact all.imp_right .inr
  · exact all
  · exact List.mem_cons_of_mem _ all
  · exact List.mem_cons_of_mem _ all

end Token

namespace Tree

theorem tokens_mem_tokensEach {c : Tree} {cs : List Tree} (h : c ∈ cs) :
    c.tokens ∈ tokensEach cs := by
  induction cs with
  | nil => cases h
  | cons d ds ih =>
    obtain rfl | h := List.mem_cons.1 h
    · exact List.mem_cons_self
    · exact List.mem_cons_of_mem _ (ih h)

/-- A node that is no label shows the text of a token of the tree. -/
theorem exists_token_text {t n : Tree} (h : n ∈ t.walk) (other : ∀ l, n.kind ≠ .label l) :
    ∃ u ∈ t.tokens, u.text = n.text := by
  induction t using Tree.induction with
  | node t cs ih =>
    obtain rfl | hn := List.mem_cons.1 h
    · exact Token.exists_within other
    · obtain ⟨c, hc, hn⟩ := mem_walkAll.1 hn
      obtain ⟨u, hu, same⟩ := ih c hc hn
      exact ⟨u, Token.mem_within (tokens_mem_tokensEach hc) hu, same⟩

end Tree

/-- In the tree of a source without string literals all texts are plain. -/
theorem plainTexts_of_parse {limits : Limits} {text file : String} {t : Tree}
    (free : StringFree text file) (h : parse limits text file = .ok t) : t.PlainTexts := by
  obtain ⟨ts, read, derived⟩ := parse_derives h
  have texts : ∀ u ∈ ts, u.kind.isKept → Plain u.text := by
    intro u hu node
    obtain ⟨i, hi⟩ := List.mem_iff_getElem?.1 hu
    obtain ⟨-, slice, behind, -, -, -, prescribed, -⟩ :=
      exists_prescribed ((gives_of_tokenize read).reads i u hi)
    exact prescribed.plain node (free ts read u hu)
  intro n hn
  cases kind : n.kind with
  | label l =>
    have mnemonics : ∀ l : Label, Plain l.mnemonic := fun l => by cases l <;> decide
    rw [derived.labelled n hn l kind]
    exact mnemonics l
  | _ =>
    obtain ⟨u, hu, same⟩ := exists_token_text hn (by simp [kind])
    rw [derived.kept_eq] at hu
    obtain ⟨hu, node⟩ := List.mem_filter.1 hu
    exact same ▸ texts u hu node

namespace Command

/-- Holds if a command line asks for the tree of a text, under a name. -/
def AsksForTree (words : List String) (input : ByteArray) (files : FileSet) (text name : String) :
    Prop :=
  ∃ r, Request.read words = .ok r ∧ r.tokens = false ∧ r.shownName = name ∧
    (if r.readsInput then textOf input else files.load r.source) = .ok text

/-- What is printed for a tree. -/
theorem AsksForTree.stdout {words : List String} {input : ByteArray} {files : FileSet}
    {text name : String} {t : Tree} (h : AsksForTree words input files text name)
    (parsed : parse .standard text name = .ok t) :
    (run words input files).map Output.stdout = .ok (t.render ++ "\n") := by
  obtain ⟨r, request, tokens, rfl, source⟩ := h
  obtain ⟨stderr, answered⟩ := Request.answerText_tree tokens parsed
  rw [run, request]
  simp only [source, Request.answer, answered]
  rfl

end Command

open Command

/-- What is written of a tree is unambiguous. Two trees of plain texts that are written in the same
way have the same texts with the same children; every tree of a source without string literals has
plain texts; and if the command prints the same for two such sources, their trees have the same
texts with the same children. -/
theorem render_unambiguous :
    (∀ t u : Tree, t.PlainTexts → u.PlainTexts → t.render = u.render → t.outline = u.outline) ∧
    (∀ limits text file t, StringFree text file → parse limits text file = .ok t →
      t.PlainTexts) ∧
    ∀ words words' input input' files files' text text' name name' t t',
      AsksForTree words input files text name → AsksForTree words' input' files' text' name' →
      StringFree text name → StringFree text' name' →
      parse .standard text name = .ok t → parse .standard text' name' = .ok t' →
      (run words input files).map Output.stdout = (run words' input' files').map Output.stdout →
      t.outline = t'.outline := by
  have unambiguous (t u : Tree) (plain : t.PlainTexts) (plain' : u.PlainTexts)
      (same : t.render = u.render) : t.outline = u.outline := by
    have alone : t.render.toList ++ [] = u.render.toList ++ [] := by rw [same]
    exact (outline_of_render plain plain' closes_nil closes_nil alone).1
  refine ⟨unambiguous, fun limits text file t => plainTexts_of_parse, ?_⟩
  intro words words' input input' files files' text text' name name' t t' asks asks' free free'
    parsed parsed' same
  rw [asks.stdout parsed, asks'.stdout parsed', Except.ok.injEq, String.append_left_inj] at same
  exact unambiguous t t' (plainTexts_of_parse free parsed) (plainTexts_of_parse free' parsed') same

/-- Parentheses that only group are not shown: both sources give the same output, and the same
texts. -/
theorem render_unambiguous_groups : ∃ t t',
    parse .standard "f(a)" "<stdin>" = .ok t ∧ parse .standard "(f)((a))" "<stdin>" = .ok t' ∧
      t.outline = t'.outline := by
  have request : Request.read ["-"] = .ok ⟨"-", "", false, false⟩ := by decide +kernel
  have asks : AsksForTree ["-"] ⟨#[0x66, 0x28, 0x61, 0x29]⟩ .bare "f(a)" "<stdin>" :=
    ⟨_, request, rfl, rfl, by decide +kernel⟩
  have asks' : AsksForTree ["-"] ⟨#[0x28, 0x66, 0x29, 0x28, 0x28, 0x61, 0x29, 0x29]⟩ .bare
      "(f)((a))" "<stdin>" :=
    ⟨_, request, rfl, rfl, by decide +kernel⟩
  have free : StringFree "f(a)" "<stdin>" := stringFree_of_all (by decide +kernel)
  have free' : StringFree "(f)((a))" "<stdin>" := stringFree_of_all (by decide +kernel)
  have shown : (parse .standard "f(a)" "<stdin>").toOption.map Tree.render =
      some "(BLOCK (CALL f a))" := by
    decide +kernel
  have shown' : (parse .standard "(f)((a))" "<stdin>").toOption.map Tree.render =
      some "(BLOCK (CALL f a))" := by
    decide +kernel
  obtain ⟨t, found, render⟩ := exists_tree_of_render shown
  obtain ⟨t', found', render'⟩ := exists_tree_of_render shown'
  refine ⟨t, t', found, found', ?_⟩
  refine render_unambiguous.2.2 _ _ _ _ _ _ _ _ _ _ _ _ asks asks' free free' found found' ?_
  rw [asks.stdout found, asks'.stdout found', render, render']

/-- A string may look like a list. -/
example : (parse .standard "'(CALL f a)'" "f.ares").toOption.map Tree.render =
    some "(BLOCK (CALL f a))" := by
  decide +kernel

end AresSyntax
