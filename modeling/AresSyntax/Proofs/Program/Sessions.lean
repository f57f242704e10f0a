import AresSyntax.Proofs.Scan.Places
import AresSyntax.Proofs.Script.Programs
import AresSyntax.Proofs.Tree.Paths

/-!
Any number of calls on one text, that fail or not, carry locations of this text and no other.

* `Parse.program_places`: a program has only locations that its reader had;
* `Session.Step`: a call on a text, with its reply;
* `Session.Reaches`: the replies and the state behind several calls;
* `Session.exists_step`: every call has a reply;
* `session_places`: all locations are places of the text, and tokens stand one behind the other.
-/
namespace AresSyntax

/-! ## The locations that things carry -/

def ParseFault.places : ParseFault → List Location
  | reading f => f.places
  | grammar e found => [(e.diagnostic found).location, found.location]

/-- The locations of the nodes of a tree. -/
def Tree.places (t : Tree) : List Location := t.walk.map (·.token.location)

def Ending.places : Ending → List Location
  | endOfText location => [location]
  | fault f => f.places

def TokenStream.places (s : TokenStream) : List Location :=
  s.pending.flatMap Outcome.places ++ s.ending.places

def Reader.places (r : Reader) : List Location :=
  r.current.location :: r.next.location :: r.stream.places

namespace Recast

/-- Leaves locations as they are that are in a list, and takes all others to one of them. -/
def into (ls : List Location) (l : Location) : Recast :=
  ⟨fun _ s => s, fun _ v => v, fun l' => if l' ∈ ls then l' else l⟩

variable {ls : List Location} {l : Location}

theorem location_into (hl : l ∈ ls) (l' : Location) : (into ls l).location l' ∈ ls := by
  by_cases known : l' ∈ ls
  · simp [into, known]
  · simp [into, known, hl]

theorem token_into {t : Token} (known : t.location ∈ ls) : t.recast (into ls l) = t := by
  simp [Token.recast, into, known]

theorem readFault_into {f : ReadFault} (known : f.places ⊆ ls) : f.recast (into ls l) = f := by
  cases f with
  | lexical e location =>
    have place : location ∈ ls := known (List.mem_singleton.2 rfl)
    simp [ReadFault.recast, into, place]
  | tooManyDigits count => rfl

theorem outcome_into {o : Outcome} (known : o.places ⊆ ls) : o.recast (into ls l) = o := by
  cases o with
  | ok t => exact congrArg Except.ok (token_into (known (List.mem_singleton.2 rfl)))
  | error f => exact congrArg Except.error (readFault_into known)

theorem ending_into {e : Ending} (known : e.places ⊆ ls) : e.recast (into ls l) = e := by
  cases e with
  | endOfText location =>
    have place : location ∈ ls := known (List.mem_singleton.2 rfl)
    simp [Ending.recast, into, place]
  | fault f => exact congrArg Ending.fault (readFault_into known)

theorem stream_into {s : TokenStream} (known : s.places ⊆ ls) : s.recast (into ls l) = s := by
  obtain ⟨pending, ending⟩ := s
  obtain ⟨first, last⟩ := List.append_subset.1 known
  have same : pending.map (Outcome.recast (into ls l)) = pending :=
    (List.map_congr_left fun o ho => outcome_into fun _ hl =>
      first (List.mem_flatMap.2 ⟨o, ho, hl⟩)).trans (List.map_id _)
  rw [TokenStream.recast, same, ending_into last]

theorem reader_into {r : Reader} (known : r.places ⊆ ls) : r.recast (into ls l) = r := by
  obtain ⟨current, known⟩ := List.cons_subset.1 known
  obtain ⟨next, stream⟩ := List.cons_subset.1 known
  rw [Reader.recast, token_into current, token_into next, stream_into stream]

end Recast

section
variable (φ : Recast)

theorem ReadFault.places_recast (f : ReadFault) :
    (f.recast φ).places = f.places.map φ.location := by
  cases f <;> rfl

theorem ParseFault.places_recast (f : ParseFault) :
    (f.recast φ).places = f.places.map φ.location := by
  cases f with
  | reading f => exact f.places_recast φ
  | grammar e found => rfl

theorem Outcome.places_recast (o : Outcome) : (o.recast φ).places = o.places.map φ.location := by
  cases o with
  | ok t => rfl
  | error f => exact f.places_recast φ

theorem Ending.places_recast (e : Ending) : (e.recast φ).places = e.places.map φ.location := by
  cases e with
  | endOfText location => rfl
  | fault f => exact f.places_recast φ

theorem TokenStream.places_recast (s : TokenStream) :
    (s.recast φ).places = s.places.map φ.location := by
  simp only [places, recast, List.flatMap_map, Outcome.places_recast, Ending.places_recast,
    List.map_append, List.map_flatMap]

theorem Reader.places_recast (r : Reader) : (r.recast φ).places = r.places.map φ.location := by
  simp only [places, recast, TokenStream.places_recast]
  rfl

mutual

theorem Tree.places_recast : ∀ t : Tree, (t.recast φ).places = t.places.map φ.location
  | .node t cs => by
    have below := placesAll_recast cs
    rw [recast, places, walk, List.map_cons, below, places, walk, List.map_cons, List.map_cons]
    rfl

theorem Tree.placesAll_recast : ∀ cs : List Tree,
    (walkAll (recastAll φ cs)).map (·.token.location) =
      ((walkAll cs).map (·.token.location)).map φ.location
  | [] => rfl
  | c :: cs => by
    have first : (c.recast φ).walk.map (·.token.location) = _ := c.places_recast
    rw [recastAll, walkAll, List.map_append, first, placesAll_recast cs, walkAll, List.map_append,
      List.map_append]
    rfl

end

end

namespace Parse

variable {limit : Option Nat} {r r' : Reader}

theorem subset_of_map {ls ms : List Location} {l : Location} (hl : l ∈ ls)
    (same : ms.map (Recast.into ls l).location = ms) : ms ⊆ ls := by
  intro m hm
  rw [← same] at hm
  obtain ⟨m', _, rfl⟩ := List.mem_map.1 hm
  exact Recast.location_into hl m'

/-- The locations of what a request gives, and of the reader behind it. -/
def resultPlaces {α : Type} (places : α → List Location) :
    EStateM.Result ParseFault Reader α → List Location
  | .ok a r => places a ++ r.places
  | .error f r => f.places ++ r.places

/-- A request that does not depend on locations has none but those that its reader had: nothing
changes if all locations that the reader does not have are taken to one that it has. -/
theorem resultPlaces_subset {α : Type} [Recastable α] {places : α → List Location} {p : Parse α}
    (recasts : ∀ φ, p (r.recast φ) = recastResult φ (p r))
    (moves : ∀ φ a, places (recast φ a) = (places a).map φ.location) :
    resultPlaces places (p r) ⊆ r.places := by
  have first : r.current.location ∈ r.places := .head _
  have again := recasts (.into r.places r.current.location)
  rw [Recast.reader_into (List.Subset.refl _)] at again
  refine subset_of_map first ?_
  have same := congrArg (resultPlaces places) again
  cases ran : p r with
  | ok a r' =>
    rw [ran, recastResult] at same
    simpa only [resultPlaces, moves, Reader.places_recast, List.map_append] using same.symm
  | error f r' =>
    rw [ran, recastResult] at same
    simpa only [resultPlaces, ParseFault.places_recast, Reader.places_recast,
      List.map_append] using same.symm

theorem program_places (limit : Option Nat) (r : Reader) :
    resultPlaces Tree.places (program ⟨limit, none⟩ r) ⊆ r.places :=
  resultPlaces_subset (recast_program · r) fun φ t => t.places_recast φ

theorem advance_places (r : Reader) :
    resultPlaces (fun t : Token => [t.location]) (advance r) ⊆ r.places :=
  resultPlaces_subset (advance_recast · r) fun _ _ => rfl

end Parse

theorem Ending.places_outcome (e : Ending) : e.outcome.places = e.places := by
  cases e <;> rfl

/-- All that is ahead of a cursor stands in the text. -/
theorem Cursor.Reads.streamWithin {text file : String} {c : Cursor} (h : c.Reads text file)
    (n : Nat) : ∀ l ∈ (c.streamWithin n).places, l.IsIn text file := by
  induction n generalizing c with
  | zero =>
    intro l hl
    obtain rfl := List.mem_singleton.1 hl
    exact h.location
  | succ n ih =>
    intro l hl
    rw [Cursor.streamWithin] at hl
    simp only at hl
    split at hl
    · rename_i e shows
      have first := (read_ending shows).1
      refine h.read.1 l ?_
      rw [first, e.places_outcome]
      exact hl
    · obtain hl | hl := List.mem_append.1 hl
      · obtain ⟨o, ho, hl⟩ := List.mem_flatMap.1 hl
        obtain rfl | ho := List.mem_cons.1 ho
        · exact h.read.1 l hl
        · exact ih h.read.2 l (List.mem_append_left _ (List.mem_flatMap.2 ⟨o, ho, hl⟩))
      · exact ih h.read.2 l (List.mem_append_right _ hl)

/-! ## Calls on a text -/

/-- A scanner on a text, with all that it has given so far, and the parsers that read from it. What
a parser has ahead is what the scanner gives. -/
structure Session where
  scanner : Cursor
  given : List Outcome
  parsers : List Reader

/-- What a call gives: a token of the scanner, all its tokens, a new parser, the tree of a parser or
a token that it takes. -/
inductive Reply
  | token (o : Outcome)
  | tokens (o : Except ReadFault (List Token))
  | parser (o : Except ReadFault Unit)
  | tree (o : Except ParseFault Tree)
  | taken (o : Except ParseFault Token)

def Reply.places : Reply → List Location
  | token o => o.places
  | tokens (.ok ts) => ts.map (·.location)
  | tree (.ok t) => t.places
  | taken (.ok t) => [t.location]
  | parser (.ok _) => []
  | tokens (.error f) | parser (.error f) => f.places
  | tree (.error f) | taken (.error f) => f.places

namespace Session

/-- The session behind the next `n` outcomes of the scanner. -/
def after (s : Session) (n : Nat) : Session :=
  { s with scanner := s.scanner.behind n, given := s.given ++ s.scanner.given n }

/-- A call with its reply, under a limit on levels of nesting. A call reads as far as it needs, also
if it fails in the end, and leaves a parser where it got to. -/
inductive Step (limit : Option Nat) : Session → Reply → Session → Prop
  | nextToken {s : Session} : Step limit s (.token s.scanner.read.1) (s.after 1)
  | tokenize {s : Session} {n : Nat} (reads : s.scanner.readAll.2 = s.scanner.behind n) :
      Step limit s (.tokens s.scanner.readAll.1) (s.after n)
  | start {s : Session} {r : Reader} (started : Reader.start s.scanner.stream = .ok r) :
      Step limit s (.parser (.ok ())) { s.after 2 with parsers := s.parsers ++ [r] }
  | startFails {s : Session} {f : ReadFault} {n : Nat}
      (failed : Reader.start s.scanner.stream = .error f) (reads : s.scanner.FirstFault n f) :
      Step limit s (.parser (.error f)) (s.after (n + 1))
  | program {s : Session} {i n : Nat} {r r' : Reader} {o : Except ParseFault Tree}
      (parser : s.parsers[i]? = some r)
      (ran : (r.onto s.scanner.stream).program ⟨limit, none⟩ = (o, r'))
      (reads : r'.stream = s.scanner.stream.drop n) :
      Step limit s (.tree o) { s.after n with parsers := s.parsers.set i r' }
  | advance {s : Session} {i : Nat} {r r' : Reader} {o : Except ParseFault Token}
      (parser : s.parsers[i]? = some r) (ran : (r.onto s.scanner.stream).advance = (o, r')) :
      Step limit s (.taken o) { s.after 1 with parsers := s.parsers.set i r' }

/-- The replies and the session behind any number of calls on a text. -/
inductive Reaches (limit : Option Nat) (text file : String) : List Reply → Session → Prop
  | begin : Reaches limit text file [] ⟨.ofText file text, [], []⟩
  | call {replies : List Reply} {s s' : Session} {reply : Reply}
      (before : Reaches limit text file replies s) (step : Step limit s reply s') :
      Reaches limit text file (replies ++ [reply]) s'

/-- Holds for sessions whose scanner has read the text from its start on, and whose parsers hold
tokens of the text. -/
structure Stands (text file : String) (s : Session) : Prop where
  scanner : s.scanner = (Cursor.ofText file text).behind s.given.length
  given : s.given = (Cursor.ofText file text).given s.given.length
  parsers : ∀ r ∈ s.parsers, r.current.location.IsIn text file ∧ r.next.location.IsIn text file

variable {limit : Option Nat} {text file : String} {s s' : Session} {reply : Reply}

theorem length_given (c : Cursor) (n : Nat) : (c.given n).length = n := by
  induction n generalizing c with
  | zero => rfl
  | succ n ih => rw [Cursor.given, List.length_cons, ih]

theorem Stands.reads (h : s.Stands text file) : s.scanner.Reads text file :=
  h.scanner ▸ (Cursor.ofText_reads text file).behind _

theorem Stands.after (h : s.Stands text file) (n : Nat) : (s.after n).Stands text file where
  scanner := by
    rw [Session.after, List.length_append, length_given, Cursor.behind_add, ← h.scanner]
  given := by
    rw [Session.after, List.length_append, length_given, Cursor.given_add, ← h.scanner, ← h.given]
  parsers := h.parsers

theorem Stands.outcome (h : s.Stands text file) {i : Nat} {o : Outcome}
    (given : s.scanner.stream.nth i = o) : ∀ l ∈ o.places, l.IsIn text file := by
  rw [← given, Cursor.nth_stream]
  exact (h.reads.behind i).read.1

/-- The parsers of a session may be others, if their tokens are tokens of the text. -/
theorem Stands.onto {rs : List Reader} (h : s.Stands text file)
    (parsers : ∀ r ∈ rs, r.current.location.IsIn text file ∧ r.next.location.IsIn text file) :
    Stands text file { s with parsers := rs } :=
  ⟨h.scanner, h.given, parsers⟩

/-- A parser on the scanner of a session has only locations in the text. -/
theorem Stands.parser (h : s.Stands text file) {i : Nat} {r : Reader}
    (parser : s.parsers[i]? = some r) :
    ∀ l ∈ (r.onto s.scanner.stream).places, l.IsIn text file := by
  obtain ⟨current, next⟩ := h.parsers r (List.mem_of_getElem? parser)
  exact List.forall_mem_cons.2 ⟨current, List.forall_mem_cons.2 ⟨next, h.reads.streamWithin _⟩⟩

theorem Stands.set (h : s.Stands text file) (i : Nat) {r : Reader}
    (places : ∀ l ∈ r.places, l.IsIn text file) :
    Stands text file { s with parsers := s.parsers.set i r } := by
  refine h.onto fun q hq => ?_
  obtain hq | rfl := List.mem_or_eq_of_mem_set hq
  · exact h.parsers q hq
  · exact ⟨places _ (.head _), places _ (.tail _ (.head _))⟩

/-- A call leaves the scanner in the text, and its reply has only locations in the text. -/
theorem Stands.step (h : s.Stands text file) (step : Step limit s reply s') :
    s'.Stands text file ∧ ∀ l ∈ reply.places, l.IsIn text file := by
  cases step with
  | nextToken => exact ⟨h.after 1, h.reads.read.1⟩
  | tokenize reads =>
    refine ⟨h.after _, ?_⟩
    obtain ⟨tokens, fault⟩ := h.reads.take (s.scanner.rest.length + 1)
    unfold Cursor.readAll
    cases taken : (s.scanner.take (s.scanner.rest.length + 1)).1 with
    | ok ts => exact List.forall_mem_map.2 (tokens ts taken)
    | error f => exact fault f taken
  | start started =>
    obtain ⟨stands, _⟩ := Reader.start_standsAt started
    refine ⟨(h.after 2).onto fun q hq => ?_, fun l none => (List.not_mem_nil none).elim⟩
    obtain hq | hq := List.mem_append.1 hq
    · exact h.parsers q hq
    · obtain rfl := List.mem_singleton.1 hq
      exact ⟨h.outcome stands.current _ (.head _), h.outcome stands.next _ (.head _)⟩
  | startFails failed reads =>
    exact ⟨h.after _, h.outcome ((s.scanner.nth_stream _).trans reads.2)⟩
  | @program i n r r' o parser ran reads =>
    have known := h.parser parser
    have subset := Parse.program_places limit (r.onto s.scanner.stream)
    suffices found : (∀ l ∈ r'.places, l.IsIn text file) ∧
        ∀ l ∈ (Reply.tree o).places, l.IsIn text file from
      ⟨(h.after n).set i found.1, found.2⟩
    unfold Reader.program at ran
    split at ran <;>
    · rename_i program
      cases ran
      rw [program] at subset
      obtain ⟨reply, reader⟩ := List.append_subset.1 subset
      exact ⟨fun l hl => known l (reader hl), fun l hl => known l (reply hl)⟩
  | @advance i r r' o parser ran =>
    have known := h.parser parser
    have subset := Parse.advance_places (r.onto s.scanner.stream)
    suffices found : (∀ l ∈ r'.places, l.IsIn text file) ∧
        ∀ l ∈ (Reply.taken o).places, l.IsIn text file from
      ⟨(h.after 1).set i found.1, found.2⟩
    unfold Reader.advance at ran
    split at ran <;>
    · rename_i taken
      cases ran
      rw [taken] at subset
      obtain ⟨reply, reader⟩ := List.append_subset.1 subset
      exact ⟨fun l hl => known l (reader hl), fun l hl => known l (reply hl)⟩

theorem Reaches.stands {replies : List Reply} (h : Reaches limit text file replies s) :
    s.Stands text file ∧ ∀ reply ∈ replies, ∀ l ∈ reply.places, l.IsIn text file := by
  induction h with
  | begin => exact ⟨⟨rfl, rfl, by simp⟩, by simp⟩
  | call _ step ih =>
    obtain ⟨stands, replies⟩ := ih
    obtain ⟨stands, reply⟩ := stands.step step
    refine ⟨stands, fun answer hr => ?_⟩
    obtain hr | hr := List.mem_append.1 hr
    · exact replies answer hr
    · exact List.mem_singleton.1 hr ▸ reply

/-- A program that is read asks its stream for some number of outcomes. -/
theorem exists_reads (limit : Option Nat) (r : Reader) :
    ∃ n, (r.program ⟨limit, none⟩).2.stream = r.stream.drop n := by
  have run : Parse.program ⟨limit, none⟩ r = (Script.programAt r.depth (r.work + 1)).run limit r :=
    Parse.program_runAt rfl (Nat.lt_succ_self _)
  obtain ⟨n, reads⟩ : ∃ n, Parse.program ⟨limit, none⟩ r =
      Parse.ontoResult (r.stream.drop n) (Parse.program ⟨limit, none⟩ r) := by
    rw [run]
    have own : (Script.programAt r.depth (r.work + 1)).run limit (r.onto r.stream) = _ :=
      Script.run_onto _ fun _ _ => rfl
    exact ⟨_, own⟩
  refine ⟨n, ?_⟩
  unfold Reader.program
  cases ran : Parse.program ⟨limit, none⟩ r with
  | ok t r' =>
    rw [ran] at reads
    exact congrArg Reader.stream (EStateM.Result.ok.inj reads).2
  | error f r' =>
    rw [ran] at reads
    exact congrArg Reader.stream (EStateM.Result.error.inj reads).2

/-- Each call has a reply, whatever was called before. -/
theorem exists_step (limit : Option Nat) (s : Session) :
    (∃ o s', Step limit s (.token o) s') ∧ (∃ o s', Step limit s (.tokens o) s') ∧
      (∃ o s', Step limit s (.parser o) s') ∧
      ∀ i < s.parsers.length, (∃ o s', Step limit s (.tree o) s') ∧
        ∃ o s', Step limit s (.taken o) s' := by
  refine ⟨⟨_, _, .nextToken⟩, ?_, ?_, fun i room => ?_⟩
  · obtain ⟨n, reads⟩ := Cursor.exists_take_behind (s.scanner.rest.length + 1) s.scanner
    exact ⟨_, _, .tokenize reads⟩
  · cases started : Reader.start s.scanner.stream with
    | ok r => exact ⟨_, _, .start started⟩
    | error f =>
      obtain ⟨n, _, first⟩ := Reader.start_eq_error.1 started
      simp only [Cursor.nth_stream] at first
      exact ⟨_, _, .startFails started first⟩
  · have parser := List.getElem?_eq_getElem room
    obtain ⟨n, reads⟩ := exists_reads limit (s.parsers[i].onto s.scanner.stream)
    exact ⟨⟨_, _, .program parser rfl reads⟩, _, _, .advance parser rfl⟩

end Session

/-- Behind any number of calls on a text, that failed or not, the scanner stands at an offset of the
text, with the line and the column of this offset. All locations that were given, of tokens, nodes
and errors, are such places of the file, and each token that the scanner gave stands before those
that it gave later. -/
theorem session_places {limit : Option Nat} {text file : String} {replies : List Reply}
    {s : Session} (h : Session.Reaches limit text file replies s) :
    s.scanner.Reads text file ∧
      (∀ reply ∈ replies, ∀ l ∈ reply.places, l.IsIn text file) ∧
      (∀ r ∈ s.parsers, r.current.location.IsIn text file ∧ r.next.location.IsIn text file) ∧
      (presentTokens s.given).Pairwise fun t u => t.location.offset < u.location.offset := by
  obtain ⟨stands, replies⟩ := h.stands
  refine ⟨stands.reads, replies, stands.parsers, ?_⟩
  rw [stands.given]
  exact Cursor.given_increasing _ _

/-- A malformed number, at which a parser does not start, and two tokens behind it. -/
theorem session_places_malformed : ∃ replies s,
    Session.Reaches (some 256) "0x\nb" "f.ares" replies s ∧
      replies.flatMap Reply.places = [⟨⟨1, 1, 0⟩, "f.ares"⟩, ⟨⟨1, 3, 2⟩, "f.ares"⟩,
        ⟨⟨2, 1, 3⟩, "f.ares"⟩] ∧
      (∀ reply ∈ replies, ∀ l ∈ reply.places, l.IsIn "0x\nb" "f.ares") ∧
      (presentTokens s.given).map (·.text) = ["\n", "b"] := by
  have refused : Reader.start (Cursor.ofText "f.ares" "0x\nb").stream =
      .error (.lexical .malformedHex ⟨⟨1, 1, 0⟩, "f.ares"⟩) := by
    decide +kernel
  have fault : (Cursor.ofText "f.ares" "0x\nb").FirstFault 0
      (.lexical .malformedHex ⟨⟨1, 1, 0⟩, "f.ares"⟩) :=
    ⟨fun j less => absurd less (Nat.not_lt_zero j), by decide +kernel⟩
  have reached : Session.Reaches (some 256) "0x\nb" "f.ares" _ _ :=
    .call (.call (.call .begin (.startFails refused fault)) .nextToken) .nextToken
  refine ⟨_, _, reached, ?_, (session_places reached).2.1, ?_⟩
  · decide +kernel
  · decide +kernel

end AresSyntax
