import AresSyntax.Proofs.Program.Layout
import AresSyntax.Proofs.Scan.Places

/-!
Tokens by their kinds alone. A token that is refused is refused in every text whose tokens have the
same kinds up to it.

* `BeginAlike`: texts whose first tokens have the same kinds;
* `Recast.plain`: tokens of which nothing is left but the kind;
* `Reader.refuses`: what stands behind a refused token does not matter;
* `parse_refuses`: no text is parsed that begins like one up to the token that is refused there.
-/
namespace AresSyntax

variable {text file text' file' : String}

namespace Lexeme

/-- The end of a text is the only lexeme whose text is fixed by its kind. -/
theorem read_isFixed {cs : List Char} {l : Lexeme} (h : (read cs).result = .ok l)
    (fixed : l.kind.isFixed) : l.kind = .endOfText := by
  have words : ∀ e ∈ reservedWords, e.2.isFixed = false := by decide
  have signs : ∀ e ∈ symbols, e.2.isFixed = false := by decide
  have noNumber {r : Reading} (number : r.IsNumber) (h : r.result = .ok l) : False := by
    obtain ⟨k, kind⟩ := number.literal l h
    rw [kind] at fixed
    cases fixed
  unfold read at h
  split at h
  · cases h
    rfl
  · rename_i c cs
    split at h
    · cases h
      cases fixed
    split at h
    · cases h
      cases found : reservedWords.lookup ((c :: cs).takeWhile isLetter) with
      | none => simp [found, Kind.isFixed] at fixed
      | some k =>
        obtain ⟨l₁, l₂, table, -⟩ := List.lookup_eq_some_iff.1 found
        have entry := words ((c :: cs).takeWhile isLetter, k) (table ▸ by simp)
        simp [found, entry] at fixed
    split at h
    · exact (noNumber (hexadecimal_isNumber _) h).elim
    split at h
    · exact (noNumber (number_isNumber _) h).elim
    split at h
    · obtain ⟨text, rfl⟩ := quotationFrom_literal h
      cases fixed
    split at h
    · rename_i found
      cases h
      rw [signs _ (symbol?_spec found).2] at fixed
      cases fixed
    · cases h

end Lexeme

/-- Leaves nothing but the kinds of tokens. -/
def Recast.plain : Recast := ⟨fun _ _ => "", fun _ _ => none, fun _ => ⟨.start, ""⟩⟩

/-- Of tokens of texts that have the same kind the same is left. -/
theorem Token.recast_plain {i j : Nat} {t t' : Token} (h : outcomes text file i = .ok t)
    (h' : outcomes text' file' j = .ok t') (same : t'.kind = t.kind) :
    t'.recast .plain = t.recast .plain := by
  cases fixed : t.kind.isFixed with
  | false => simp [recast, Recast.plain, fixed, same]
  | true =>
    obtain ⟨start, l, -, -, -, result, -, rfl, -⟩ := Cursor.read_eq_ok (Prod.ext h rfl)
    have last := Lexeme.read_isFixed result fixed
    rw [outcomes_atEnd h last, outcomes_atEnd h' (same.trans last)]
    rfl

/-- The first `n` tokens of both texts have the same kinds. -/
def BeginAlike (n : Nat) (text file text' file' : String) : Prop :=
  ∀ i < n, ∃ t t', outcomes text file i = .ok t ∧ outcomes text' file' i = .ok t' ∧
    t'.kind = t.kind

theorem upToEnd_others {ts pre rest : List Token} (h : upToEnd ts = pre ++ rest)
    (some : rest ≠ []) : ∀ t ∈ pre, t.kind ≠ .endOfText := by
  induction ts generalizing pre with
  | nil =>
    obtain ⟨rfl, -⟩ := List.append_eq_nil_iff.1 h.symm
    simp
  | cons t ts ih =>
    cases pre with
    | nil => simp
    | cons u pre =>
      by_cases last : t.kind = .endOfText
      · rw [upToEnd_cons_of_eq last] at h
        obtain ⟨-, nothing⟩ := List.cons.inj h
        exact absurd (List.append_eq_nil_iff.1 nothing.symm).2 some
      · rw [upToEnd_cons_of_ne last] at h
        obtain ⟨rfl, later⟩ := List.cons.inj h
        exact List.forall_mem_cons.2 ⟨last, ih later⟩

namespace TokenStream

/-- What is listed are the first outcomes. -/
theorem nth_of_listing {s : TokenStream} {i : Nat} {t : Token} (h : s.listing.1[i]? = some t) :
    s.nth i = .ok t := by
  obtain ⟨pending, ending⟩ := s
  induction pending generalizing i with
  | nil =>
    cases ending with
    | fault f => cases h
    | endOfText location =>
      obtain ⟨rfl, rfl⟩ : i = 0 ∧ Token.atEnd location = t := by
        have single : [Token.atEnd location][i]? = some t := h
        rwa [List.getElem?_singleton, Option.ite_none_right_eq_some, Option.some.injEq] at single
      rfl
  | cons o pending ih =>
    cases o with
    | error f => cases h
    | ok u =>
      cases i with
      | zero => exact congrArg Except.ok (Option.some.inj h)
      | succ i => exact ih h

end TokenStream

namespace Reader

variable {r r' q q' : Reader} {limit : Option Nat} {e : GrammarError} {t : Token} {u : Tree}

/-- The tokens of a reader are the first outcomes that it sees. -/
theorem nth_of_tokens {i : Nat} (h : r.tokens[i]? = some t) : r.nth i = .ok t := by
  obtain ⟨more, whole⟩ := upToEnd_isPrefix (r.current :: r.next :: r.stream.listing.1)
  have listed : (r.current :: r.next :: r.stream.listing.1)[i]? = some t := by
    have inside : i < r.tokens.length := (List.getElem?_eq_some_iff.1 h).1
    rw [← whole]
    exact (List.getElem?_append_left inside).trans h
  match i with
  | 0 => exact congrArg Except.ok (Option.some.inj listed)
  | 1 => exact congrArg Except.ok (Option.some.inj listed)
  | i + 2 => exact TokenStream.nth_of_listing listed

/-- What stands behind a refused token does not matter: with the same outcomes up to it there is no
tree. -/
theorem refuses (regular : r.Regular) (top : r.context = .top) (top' : q.context = .top)
    (refused : Parse.program ⟨limit, none⟩ r = .error (.grammar e t) r')
    (other : e ≠ .nestedTooDeeply) (found : Parse.program ⟨limit, none⟩ q = .ok u q') :
    ∃ m, (t.kind ≠ .endOfText → r.tokens.length = m + r'.tokens.length) ∧
      ¬ ∀ k ≤ m, q.nth k = r.nth k := by
  obtain ⟨n, room, room'⟩ := TokenStream.exists_room r q
  have depth : r.depth = 0 := congrArg Context.depth top
  have depth' : q.depth = 0 := congrArg Context.depth top'
  have inside : q.inSubroutine = r.inSubroutine :=
    congrArg Context.inSubroutine (top'.trans top.symm)
  rw [Parse.program_run depth room] at refused
  rw [Parse.program_run depth' room'] at found
  have lands := Script.lands limit (Script.program n) r.standsAt_nth
  rw [refused, Nat.zero_add] at lands
  obtain ⟨-, rfl⟩ := lands
  refine ⟨(Script.program n).reads limit r, ?_, ?_⟩
  · intro goes
    have ends : Parse.EndsAt r' ((Script.program n).run limit r) := by
      rw [refused]
      rfl
    exact Script.length_tokens_of_run ends regular goes
  · intro agree
    rw [← Nat.zero_add ((Script.program n).reads limit r)] at agree
    exact (Script.program_steady n).refuses r.standsAt_nth q.standsAt_nth nofun
      (depth'.trans depth.symm) inside refused other agree found

theorem nth_recast (φ : Recast) (r : Reader) (k : Nat) :
    (r.recast φ).nth k = (r.nth k).recast φ :=
  match k with
  | 0 | 1 => rfl
  | k + 2 => TokenStream.nth_recast φ r.stream k

end Reader

/-- Behind the end of a text there is nothing but the end token. -/
theorem outcomes_stay {i k : Nat} {t : Token} (h : outcomes text file i = .ok t)
    (last : t.kind = .endOfText) (le : i ≤ k) : outcomes text file k = .ok t := by
  obtain ⟨d, rfl⟩ := Nat.exists_eq_add_of_le le
  have read : ((Cursor.ofText file text).behind i).read.1 = .ok t := h
  have shows : ending? ((Cursor.ofText file text).behind i).read.1 =
      some (.endOfText t.location) := by
    simp [read, ending?, last]
  obtain ⟨first, again⟩ := Cursor.read_ending shows
  cases d with
  | zero => exact h
  | succ d =>
    rw [outcomes, Cursor.behind_add, Cursor.behind_succ, Cursor.behind_of_stays (by rw [again]),
      again, ← first, read]

/-- Of the outcomes of texts that begin alike the same is left, also behind the end of both. -/
theorem BeginAlike.agree {i m k : Nat} {t : Token}
    (alike : BeginAlike (i + 1) text file text' file') (here : outcomes text file i = .ok t)
    (short : t.kind ≠ .endOfText → m = i) (le : k ≤ m) :
    (outcomes text' file' k).recast .plain = (outcomes text file k).recast .plain := by
  by_cases inside : k < i + 1
  · obtain ⟨u, u', read, read', kind⟩ := alike k inside
    rw [read, read']
    exact congrArg Except.ok (Token.recast_plain read read' kind)
  · have last : t.kind = .endOfText := by
      by_contra other
      have same := short other
      omega
    obtain ⟨u, u', read, read', kind⟩ := alike i (Nat.lt_succ_self i)
    obtain rfl : t = u := Except.ok.inj (here.symm.trans read)
    rw [outcomes_stay here last (by omega), outcomes_stay read' (kind.trans last) (by omega)]
    exact congrArg Except.ok (Token.recast_plain here read' kind)

/-- The tokens of a text's reader are the first outcomes of the text. -/
theorem Reader.outcomes_of_tokens {r : Reader} {i : Nat} {t : Token}
    (started : Reader.start (Cursor.ofText file text).stream = .ok r)
    (h : r.tokens[i]? = some t) : outcomes text file i = .ok t := by
  rw [← (nth_of_start started).2]
  exact nth_of_tokens h

/-- No text is parsed that begins like a text up to the token that is refused there. -/
theorem parse_refuses {limit : Option Nat} {r r' : Reader} {e : GrammarError} {t : Token}
    {ts : List Token} (started : Reader.start (Cursor.ofText file text).stream = .ok r)
    (refused : Parse.program ⟨limit, none⟩ r = .error (.grammar e t) r')
    (other : e ≠ .nestedTooDeeply) (taken : r.tokens = ts ++ r'.tokens)
    (here : outcomes text file ts.length = .ok t)
    (alike : BeginAlike (ts.length + 1) text file text' file') (u : Tree) :
    parse ⟨limit, none⟩ text' file' ≠ .ok u := by
  intro found
  obtain ⟨q, q', started', found⟩ := exists_program_of_parse found
  obtain ⟨place, nth⟩ := Reader.nth_of_start started
  obtain ⟨place', nth'⟩ := Reader.nth_of_start started'
  have refused' := congrArg (Parse.recastResult .plain) refused
  have found' := congrArg (Parse.recastResult .plain) found
  rw [← Parse.recast_program] at refused' found'
  have regular : (r.recast .plain).Regular := place.regular.recast
  have top : (r.recast .plain).context = .top := place.context
  have top' : (q.recast .plain).context = .top := place'.context
  obtain ⟨m, length, differ⟩ := Reader.refuses regular top top' refused' other found'
  refine differ fun k le => ?_
  rw [Reader.nth_recast, Reader.nth_recast, nth, nth']
  refine alike.agree here (fun goes => ?_) le
  have count := length goes
  rw [Reader.tokens_recast, Reader.tokens_recast, taken, recast_append,
    List.length_append] at count
  have same : (AresSyntax.recast .plain ts).length = ts.length := List.length_map _
  omega

end AresSyntax
