import AresSyntax.Text.Quoted

/-!
Places in a source text. A position counts lines and columns from one and characters from zero;
a location is a position in a named source.

Main definitions:
* `Position.after`, `Position.past`: the position behind one character, and behind a run of them;
* `Location.render`: the form `file:line:column` that diagnostics start with.
-/
namespace AresSyntax

/-- A place between two characters of a text. -/
structure Position where
  line : Int
  column : Int
  offset : Int
  deriving DecidableEq, Repr

/-- The place before the first character. -/
def Position.start : Position := ⟨1, 1, 0⟩

/-- The place behind `c`: a line end starts the next line, anything else takes one column. -/
def Position.after (p : Position) (c : Char) : Position :=
  if c = '\n' then ⟨p.line + 1, 1, p.offset + 1⟩ else ⟨p.line, p.column + 1, p.offset + 1⟩

/-- The place behind a run of characters. -/
def Position.past (p : Position) (cs : List Char) : Position :=
  cs.foldl Position.after p

@[simp] theorem Position.past_nil (p : Position) : p.past [] = p := rfl

@[simp] theorem Position.past_cons (p : Position) (c : Char) (cs : List Char) :
    p.past (c :: cs) = (p.after c).past cs := rfl

theorem Position.past_append (p : Position) (xs ys : List Char) :
    p.past (xs ++ ys) = (p.past xs).past ys := List.foldl_append

@[simp] theorem Position.offset_after (p : Position) (c : Char) :
    (p.after c).offset = p.offset + 1 := by
  unfold Position.after
  split <;> rfl

theorem Position.offset_past (p : Position) (cs : List Char) :
    (p.past cs).offset = p.offset + cs.length := by
  induction cs generalizing p with
  | nil => simp
  | cons c cs ih => simp only [past_cons, ih, offset_after, List.length_cons]; omega

/-- A position in the source called `file`. -/
structure Location extends Position where
  file : String
  deriving DecidableEq, Repr

/-- The one-line form `file:line:column`. -/
def Location.render (l : Location) : String :=
  l.file ++ ":" ++ toString l.line ++ ":" ++ toString l.column

/-- The form that shows every field. -/
def Location.inspect (l : Location) : String :=
  "SourceLocation(" ++ Text.quoted l.file ++ ", " ++ toString l.line ++ ", " ++
    toString l.column ++ ", " ++ toString l.offset ++ ")"

end AresSyntax
