import AresSyntax.Cursor

/-!
All that reading a text gives, one outcome after the other. From some point on every further
outcome is the same: the end token, or a character that starts no token.

Main definitions:
* `TokenStream.next`: the next outcome and the stream behind it;
* `Cursor.stream`: the stream of what a cursor still has to read;
* `TokenStream.listing`: the tokens before the first fault, and that fault.
-/
namespace AresSyntax

/-- What a text gives again and again once all else is read: its end, or a fault. -/
inductive Ending
  | endOfText (location : Location)
  | fault (f : ReadFault)
  deriving DecidableEq, Repr

/-- The token at the end of a text. -/
def Token.atEnd (location : Location) : Token := ⟨.endOfText, "", none, location⟩

def Ending.outcome : Ending → Outcome
  | endOfText location => .ok (.atEnd location)
  | fault f => .error f

/-- The outcomes still to come: those that are `pending`, and then the ending for ever. -/
structure TokenStream where
  pending : List Outcome
  ending : Ending
  deriving Repr

namespace TokenStream

def next (s : TokenStream) : Outcome × TokenStream :=
  match s.pending with
  | [] => (s.ending.outcome, s)
  | o :: pending => (o, { s with pending })

/-- The stream with the outcome `o` before all others. -/
def push (o : Outcome) (s : TokenStream) : TokenStream := { s with pending := o :: s.pending }

@[simp] theorem next_push (o : Outcome) (s : TokenStream) : (s.push o).next = (o, s) := rfl

@[simp] theorem next_nil (e : Ending) : (⟨[], e⟩ : TokenStream).next = (e.outcome, ⟨[], e⟩) := rfl

/-- The tokens before the first fault, and that fault. -/
def listingOf : List Outcome → List Token × Option ReadFault
  | [] => ([], none)
  | .error f :: _ => ([], some f)
  | .ok t :: os => (listingOf os).map (t :: ·) id

/-- The tokens of a stream up to and with the end token, or up to the first fault. -/
def listing (s : TokenStream) : List Token × Option ReadFault :=
  listingOf (s.pending ++ [s.ending.outcome])

end TokenStream

/-- The ending that an outcome shows: the end token and a character that starts no token use up
nothing and hence stay. -/
def ending? : Outcome → Option Ending
  | .ok t => if t.kind = .endOfText then some (.endOfText t.location) else none
  | .error (.lexical (.unrecognized c) location) =>
    some (.fault (.lexical (.unrecognized c) location))
  | .error _ => none

namespace Cursor

/-- The stream of a cursor that has at most `n` characters to read. Every outcome that is no
ending takes one. -/
def streamWithin : Nat → Cursor → TokenStream
  | 0, c => ⟨[], .endOfText c.location⟩
  | n + 1, c =>
    let (o, behind) := c.read
    match ending? o with
    | some e => ⟨[], e⟩
    | none => (behind.streamWithin n).push o

/-- The stream of all that a cursor has still to read. -/
def stream (c : Cursor) : TokenStream := c.streamWithin c.rest.length

end Cursor
end AresSyntax
