import AresSyntax.Grammar.Program
import AresSyntax.Proofs.Reader.Tokens
import AresSyntax.Proofs.Scan.Lossless

/-!
The stream of a text gives the tokens of the text.

* `Cursor.take_eq_ok_iff`: a stream lists what its cursor reads;
* `tokenize_eq_ok`: the stream of a text lists the tokens of the text;
* `Reader.tokenize_of_start`, `Reader.start_of_tokenize`: a reader starts before these tokens.
-/
namespace AresSyntax

namespace TokenStream

/-- Holds for streams that have no end token among the pending outcomes. -/
def EndsLast (s : TokenStream) : Prop := ∀ t, .ok t ∈ s.pending → t.kind ≠ .endOfText

theorem EndsLast.push {s : TokenStream} {o : Outcome} (h : s.EndsLast) (ho : ending? o = none) :
    (s.push o).EndsLast := by
  intro t ht
  obtain rfl | ht := List.mem_cons.1 ht
  · intro ending
    simp [ending?, ending] at ho
  · exact h t ht

/-- A stream gives its pending outcomes first. -/
theorem push_of_next {s s' : TokenStream} {o : Outcome} (h : s.next = (o, s')) :
    s = s'.push o ∨ s = s' ∧ o = s.ending.outcome := by
  obtain ⟨pending, ending⟩ := s
  cases pending <;> cases h
  · exact .inr ⟨rfl, rfl⟩
  · exact .inl rfl

/-- Giving a token leaves the fault of a stream as it is. -/
theorem fault_of_next {s s' : TokenStream} {t : Token} (h : s.next = (.ok t, s')) :
    s'.listing.2 = s.listing.2 := by
  obtain rfl | ⟨rfl, _⟩ := push_of_next h <;> rfl

/-- Up to the end is all that is listed, if there is no fault. -/
theorem EndsLast.upToEnd_listing {s : TokenStream} (h : s.EndsLast) (clean : s.listing.2 = none) :
    upToEnd s.listing.1 = s.listing.1 := by
  obtain ⟨pending, ending⟩ := s
  induction pending with
  | nil =>
    cases ending with
    | endOfText location => exact upToEnd_cons_of_eq rfl []
    | fault f => cases clean
  | cons o pending ih =>
    cases o with
    | error f => cases clean
    | ok t =>
      have other := h t List.mem_cons_self
      have later : EndsLast ⟨pending, ending⟩ := fun u hu => h u (List.mem_cons_of_mem _ hu)
      exact (upToEnd_cons_of_ne other _).trans (congrArg (t :: ·) (ih later clean))

/-- Nothing that is listed before a fault is the end token. -/
theorem EndsLast.not_end_of_fault {s : TokenStream} {f : ReadFault} (h : s.EndsLast)
    (faulty : s.listing.2 = some f) : ∀ t ∈ s.listing.1, t.kind ≠ .endOfText := by
  obtain ⟨pending, ending⟩ := s
  induction pending with
  | nil =>
    cases ending with
    | endOfText location => cases faulty
    | fault f => exact fun t ht => nomatch ht
  | cons o pending ih =>
    cases o with
    | error f => exact fun t ht => nomatch ht
    | ok t =>
      intro u hu
      obtain rfl | hu := List.mem_cons.1 hu
      · exact h u List.mem_cons_self
      · exact ih (fun v hv => h v (List.mem_cons_of_mem _ hv)) faulty u hu

end TokenStream

namespace Cursor

theorem streamWithin_endsLast (n : Nat) (c : Cursor) : (c.streamWithin n).EndsLast := by
  induction n generalizing c with
  | zero => exact fun t ht => nomatch ht
  | succ n ih =>
    simp only [streamWithin]
    cases shows : ending? c.read.1 with
    | some e => exact fun t ht => nomatch ht
    | none => exact (ih _).push shows

/-- Reading a token other than the end token takes a character. -/
theorem length_rest_of_read {c c' : Cursor} {t : Token} (h : c.read = (.ok t, c'))
    (other : t.kind ≠ .endOfText) : c'.rest.length < c.rest.length := by
  obtain ⟨ss, slice, rest, _, cut, _, spells, _, rfl, _⟩ := read_spec h
  have some : 0 < slice.length := List.length_pos_iff.2 fun none => other (spells.ending.1 none)
  simp only [rest_skip, List.length_drop, cut, List.length_append]
  omega

/-- At the end of a text the end token is read, and reading stays there. -/
theorem read_of_rest_nil {c : Cursor} (h : c.rest = []) :
    c.read = (.ok (.atEnd c.location), c) := by
  obtain ⟨file, position, rest⟩ := c
  cases h
  rfl

theorem listing_of_fault {n : Nat} {c c' : Cursor} {f : ReadFault} (h : c.read = (.error f, c')) :
    (c.streamWithin (n + 1)).listing = ([], some f) := by
  simp only [streamWithin, h]
  cases shows : ending? (.error f) with
  | none => rfl
  | some e =>
    unfold ending? at shows
    split at shows
    · rename_i same
      cases same
    · rename_i same
      cases same
      cases shows
      rfl
    · cases shows

/-- A stream without faults lists a token, and those behind it unless it is the end token. -/
theorem listing_eq_ok {n : Nat} {c : Cursor} {ts : List Token} :
    (c.streamWithin (n + 1)).listing = (ts, none) ↔
      ∃ t c', c.read = (.ok t, c') ∧ (t.kind = .endOfText ∧ [t] = ts ∨
        t.kind ≠ .endOfText ∧ ∃ us, (c'.streamWithin n).listing = (us, none) ∧ t :: us = ts) := by
  cases read : c.read with
  | mk o c' =>
    cases o with
    | error f => simp [listing_of_fault read]
    | ok t =>
      by_cases ending : t.kind = .endOfText
      · obtain ⟨_, _, _, _, _, _, _, _, _, ends⟩ := read_spec read
        have listed : (c.streamWithin (n + 1)).listing = ([t], none) := by
          simp only [streamWithin, read, ending?, ending, if_true]
          rw [(ends ending).2]
          rfl
        simp [listed, ending]
      · have listed : (c.streamWithin (n + 1)).listing =
            (t :: (c'.streamWithin n).listing.1, (c'.streamWithin n).listing.2) := by
          simp only [streamWithin, read, ending?, ending, if_false]
          rfl
        cases others : (c'.streamWithin n).listing with
        | mk us fault =>
          rw [others] at listed
          simp only [listed, Prod.mk.injEq, Except.ok.injEq]
          constructor
          · rintro ⟨rfl, rfl⟩
            exact ⟨t, c', ⟨rfl, rfl⟩, .inr ⟨ending, us, others, rfl⟩⟩
          · rintro ⟨_, _, ⟨rfl, rfl⟩, ⟨last, _⟩ | ⟨_, _, same, rfl⟩⟩
            · exact absurd last ending
            · obtain ⟨rfl, rfl⟩ := Prod.mk.inj (others.symm.trans same)
              exact ⟨rfl, rfl⟩

/-- A stream lists what its cursor reads. -/
theorem take_eq_ok_iff {n : Nat} {c : Cursor} {ts : List Token} (room : c.rest.length ≤ n) :
    (c.take (n + 1)).1 = .ok ts ↔ (c.streamWithin n).listing = (ts, none) := by
  induction n generalizing c ts with
  | zero =>
    have nothing : c.rest = [] := List.length_eq_zero_iff.1 (Nat.le_zero.1 room)
    have listed : (c.streamWithin 0).listing = ([.atEnd c.location], none) := rfl
    simp [take, read_of_rest_nil nothing, listed, Token.atEnd]
  | succ n ih =>
    rw [take_eq_ok, listing_eq_ok]
    constructor
    · rintro ⟨t, c', read, last | ⟨other, us, more, rfl⟩⟩
      · exact ⟨t, c', read, .inl last⟩
      · have shorter := length_rest_of_read read other
        exact ⟨t, c', read, .inr ⟨other, us, (ih (by omega)).1 more, rfl⟩⟩
    · rintro ⟨t, c', read, last | ⟨other, us, more, rfl⟩⟩
      · exact ⟨t, c', read, .inl last⟩
      · have shorter := length_rest_of_read read other
        exact ⟨t, c', read, .inr ⟨other, us, (ih (by omega)).2 more, rfl⟩⟩

end Cursor

namespace Reader

/-- A reader starts at the top, before all that its stream lists. -/
theorem start_spec {s : TokenStream} {r : Reader} (hs : s.EndsLast) (h : Reader.start s = .ok r) :
    r.At .top ∧ r.tokens = upToEnd s.listing.1 ∧ r.stream.listing.2 = s.listing.2 := by
  unfold start at h
  split at h
  · cases h
  · rename_i current s₁ first
    split at h
    · cases h
    · rename_i next s₂ second
      cases h
      have lookahead := TokenStream.upToEnd_listing second
      refine ⟨⟨⟨?_, ?_, ?_⟩, rfl⟩, ?_, ?_⟩
      · intro t ht
        exact hs t (TokenStream.next_pending_subset first _
          (TokenStream.next_pending_subset second _ ht))
      · intro ending
        refine TokenStream.next_stays second fun pending => ?_
        exact hs next (TokenStream.next_pending_subset first _ pending) ending
      · intro ending
        have stays := TokenStream.next_stays first fun pending => hs current pending ending
        rw [stays] at second
        exact (Except.ok.inj (Prod.mk.inj second).1).symm
      · rw [TokenStream.upToEnd_listing first]
        unfold tokens
        by_cases ending : current.kind = .endOfText
        · rw [upToEnd_cons_of_eq ending, upToEnd_cons_of_eq ending]
        · rw [upToEnd_cons_of_ne ending, upToEnd_cons_of_ne ending, lookahead]
      · rw [TokenStream.fault_of_next second, TokenStream.fault_of_next first]

theorem start_of_clean {s : TokenStream} (clean : s.listing.2 = none) :
    ∃ r, Reader.start s = .ok r := by
  obtain ⟨current, s₁, first, clean⟩ := TokenStream.next_of_clean clean
  obtain ⟨next, s₂, second, _⟩ := TokenStream.next_of_clean clean
  unfold start
  rw [first]
  simp only
  rw [second]
  exact ⟨_, rfl⟩

end Reader

/-- The tokens of a text are what its stream lists, if there is no fault. -/
theorem tokenize_eq_ok {text file : String} {ts : List Token} :
    tokenize text file = .ok ts ↔ (Cursor.ofText file text).stream.listing = (ts, none) :=
  Cursor.take_eq_ok_iff (Nat.le_refl _)

namespace Reader

variable {text file : String}

/-- A reader that sees the end of its text sees all tokens of the text. -/
theorem tokenize_of_start {r : Reader} (h : Reader.start (Cursor.ofText file text).stream = .ok r)
    (ends : ∃ e ∈ r.tokens, e.kind = .endOfText) : tokenize text file = .ok r.tokens := by
  have last := Cursor.streamWithin_endsLast text.toList.length (Cursor.ofText file text)
  obtain ⟨_, tokens, _⟩ := start_spec last h
  rw [tokenize_eq_ok, tokens]
  cases fault : (Cursor.ofText file text).stream.listing.2 with
  | none =>
    rw [last.upToEnd_listing fault]
    exact Prod.ext rfl fault
  | some f =>
    obtain ⟨e, he, ending⟩ := ends
    rw [tokens] at he
    exact absurd ending (last.not_end_of_fault fault e ((upToEnd_isPrefix _).subset he))

/-- The reader of a text without faults starts before the tokens of the text. -/
theorem start_of_tokenize {ts : List Token} (h : tokenize text file = .ok ts) :
    ∃ r, Reader.start (Cursor.ofText file text).stream = .ok r ∧ r.Before .top ts := by
  have listed := tokenize_eq_ok.1 h
  have clean : (Cursor.ofText file text).stream.listing.2 = none := by rw [listed]
  have last := Cursor.streamWithin_endsLast text.toList.length (Cursor.ofText file text)
  obtain ⟨r, started⟩ := start_of_clean clean
  obtain ⟨place, tokens, fault⟩ := start_spec last started
  refine ⟨r, started, place, fault.trans clean, ?_⟩
  rw [tokens, last.upToEnd_listing clean]
  exact congrArg Prod.fst listed

end Reader
end AresSyntax
