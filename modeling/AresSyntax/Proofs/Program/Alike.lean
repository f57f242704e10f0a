import AresSyntax.Proofs.Grammar.Exactness
import AresSyntax.Proofs.Script.Programs
import AresSyntax.Proofs.Tree.Spelled

/-!
Texts whose tokens look alike: they differ in what the grammar does not go by.

* `Reader.Before.recast`: a recast reader stands before the recast tokens;
* `parse_of_recast`: a text is parsed if the grammar derives a tree from its tokens recast, and the
  tree is the derived one up to this.
-/
namespace AresSyntax

variable {φ : Recast}

theorem upToEnd_recast (ts : List Token) : upToEnd (recast φ ts) = recast φ (upToEnd ts) := by
  induction ts with
  | nil => rfl
  | cons t ts ih =>
    rw [recast_cons]
    by_cases last : t.kind = .endOfText
    · rw [upToEnd_cons_of_eq last, upToEnd_cons_of_eq (by exact last)]
      rfl
    · rw [upToEnd_cons_of_ne last, upToEnd_cons_of_ne (by exact last), ih]
      rfl

theorem TokenStream.listingOf_recast (os : List Outcome) :
    listingOf (os.map (Outcome.recast φ)) =
      (Recastable.recast φ (listingOf os).1, (listingOf os).2.map (ReadFault.recast φ)) := by
  induction os with
  | nil => rfl
  | cons o os ih =>
    cases o with
    | error f => rfl
    | ok t =>
      simp only [List.map_cons, Outcome.recast, listingOf, ih]
      rfl

theorem TokenStream.listing_recast (s : TokenStream) : (s.recast φ).listing =
    (Recastable.recast φ s.listing.1, s.listing.2.map (ReadFault.recast φ)) := by
  have whole : (s.recast φ).pending ++ [(s.recast φ).ending.outcome] =
      (s.pending ++ [s.ending.outcome]).map (Outcome.recast φ) := by
    rw [List.map_append, List.map_singleton, ← Ending.outcome_recast]
    rfl
  rw [listing, whole, listingOf_recast, listing]

namespace Reader

variable {r : Reader} {c : Context} {ts : List Token}

theorem Regular.recast (h : r.Regular) : (r.recast φ).Regular where
  pending := by
    intro t ht
    obtain ⟨o, ho, same⟩ := List.mem_map.1 ht
    cases o with
    | error f => cases same
    | ok u =>
      cases same
      exact h.pending u ho
  next last := by
    have stays := h.next last
    change (r.stream.recast φ).next = _
    rw [TokenStream.next_recast, stays]
    rfl
  current last := congrArg (Token.recast φ) (h.current last)

theorem tokens_recast (φ : Recast) (r : Reader) :
    (r.recast φ).tokens = Recastable.recast φ r.tokens := by
  have listed : (r.recast φ).tokens =
      upToEnd (Recastable.recast φ (r.current :: r.next :: r.stream.listing.1)) := by
    change upToEnd (_ :: _ :: (r.stream.recast φ).listing.1) = _
    rw [TokenStream.listing_recast]
    rfl
  rw [listed, upToEnd_recast]
  rfl

/-- A recast reader stands before the recast tokens. -/
theorem Before.recast (φ : Recast) (h : r.Before c ts) :
    (r.recast φ).Before c (Recastable.recast φ ts) where
  regular := h.regular.recast
  context := h.context
  clean := by
    change (r.stream.recast φ).listing.2 = none
    rw [TokenStream.listing_recast, h.clean]
    rfl
  tokens := by rw [tokens_recast, h.tokens]

end Reader

/-- Moves everything to one place. -/
def Recast.gather (location : Location) : Recast := ⟨fun _ s => s, fun _ v => v, fun _ => location⟩

theorem Token.recast_gather (t : Token) (location : Location) :
    t.recast (.gather location) = t.lexeme.token location := by
  simp [Token.recast, Recast.gather, Lexeme.token, Token.lexeme]

/-- Tokens that were moved to one place have their lexemes there. -/
theorem recast_gather (location : Location) (ts : List Token) :
    recast (.gather location) ts = placed location (ts.map Token.lexeme) := by
  rw [placed, List.map_map]
  exact List.map_congr_left fun t _ => t.recast_gather location

/-- A text is parsed if the grammar derives a tree from its tokens recast, and the tree that is
found is the derived one when it is recast. -/
theorem parse_of_recast {limit : Option Nat} {text file : String} {ts : List Token} {t : Tree}
    (read : tokenize text file = .ok ts) (h : DerivesProgram limit (recast φ ts) t) :
    ∃ u, parse ⟨limit, none⟩ text file = .ok u ∧ recast φ u = t := by
  obtain ⟨r, started, before⟩ := Reader.start_of_tokenize read
  have top : r.depth = 0 := congrArg Context.depth before.context
  have recast := before.recast φ
  have room := (r.recast φ).length_tokens_le
  rw [recast.tokens] at room
  have derived : DerivesProgram (Limits.mk limit none).nesting _ t := h
  obtain ⟨q, found⟩ := Parse.program_complete derived recast
    (.inl (by simp only [Option.getD_none]; omega))
  rw [Parse.program_recast top (Nat.lt_succ_self r.work)] at found
  cases run : (Script.program (r.work + 1)).run limit r with
  | error f r' =>
    rw [run] at found
    cases found
  | ok u r' =>
    rw [run] at found
    have program : Parse.program ⟨limit, none⟩ r = .ok u r' :=
      (Parse.program_run top (Nat.lt_succ_self _)).trans run
    refine ⟨u, ?_, ?_⟩
    · unfold parse
      rw [started]
      exact Reader.program_eq_ok.2 ⟨r', program⟩
    · cases found
      rfl

end AresSyntax
