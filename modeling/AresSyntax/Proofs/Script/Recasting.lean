import AresSyntax.Grammar.Expression

/-!
The same tokens with other texts, values and locations. The kinds stay, and with them all that the
grammar goes by.

* `Recast`: what becomes of texts, values and locations;
* `Recastable`: the things that are made of tokens;
* `Parse.advance_recast`: a recast reader takes the recast tokens.
-/
namespace AresSyntax

/-- New texts, values and locations for tokens, chosen by the location of the token. -/
structure Recast where
  text : Location → String → String
  value : Location → Option Value → Option Value
  location : Location → Location

/-- The kinds whose tokens all have the same text: labels have their mnemonic, and the end token has
none. -/
def Kind.isFixed : Kind → Bool
  | label _ | endOfText => true
  | _ => false

/-- The things that are made of tokens. -/
class Recastable (α : Type) where
  recast : Recast → α → α

export Recastable (recast)

variable (φ : Recast)

instance : Recastable Unit := ⟨fun _ u => u⟩

instance : Recastable Bool := ⟨fun _ b => b⟩

instance {α : Type} [Recastable α] : Recastable (List α) := ⟨fun φ => List.map (recast φ)⟩

instance {α : Type} [Recastable α] : Recastable (Option α) := ⟨fun φ => Option.map (recast φ)⟩

def Token.recast (t : Token) : Token where
  kind := t.kind
  text := if t.kind.isFixed then t.text else φ.text t.location t.text
  value := if t.kind.isFixed then t.value else φ.value t.location t.value
  location := φ.location t.location

instance : Recastable Token := ⟨Token.recast⟩

namespace Tree

mutual

def recast : Tree → Tree
  | node t cs => node (t.recast φ) (recastAll cs)

def recastAll : List Tree → List Tree
  | [] => []
  | c :: cs => c.recast :: recastAll cs

end

instance : Recastable Tree := ⟨Tree.recast⟩

@[simp] theorem recastAll_eq (cs : List Tree) : recastAll φ cs = Recastable.recast φ cs := by
  induction cs with
  | nil => rfl
  | cons c cs ih => exact congrArg (c.recast φ :: ·) ih

end Tree

def ReadFault.recast : ReadFault → ReadFault
  | lexical e location => lexical e (φ.location location)
  | tooManyDigits count => tooManyDigits count

def ParseFault.recast : ParseFault → ParseFault
  | reading f => reading (f.recast φ)
  | grammar e found => grammar e (found.recast φ)

def Outcome.recast : Outcome → Outcome
  | .ok t => .ok (t.recast φ)
  | .error f => .error (f.recast φ)

def Ending.recast : Ending → Ending
  | endOfText location => endOfText (φ.location location)
  | fault f => fault (f.recast φ)

def TokenStream.recast (s : TokenStream) : TokenStream :=
  ⟨s.pending.map (Outcome.recast φ), s.ending.recast φ⟩

def Reader.recast (r : Reader) : Reader where
  current := r.current.recast φ
  next := r.next.recast φ
  stream := r.stream.recast φ
  depth := r.depth
  inSubroutine := r.inSubroutine

/-- What a request gives, recast with the reader behind it. -/
def Parse.recastResult {α : Type} [Recastable α] :
    EStateM.Result ParseFault Reader α → EStateM.Result ParseFault Reader α
  | .ok a r => .ok (recast φ a) (r.recast φ)
  | .error f r => .error (f.recast φ) (r.recast φ)

section
variable {α : Type} [Recastable α]

@[simp] theorem recast_unit (u : Unit) : recast φ u = u := rfl

@[simp] theorem recast_bool (b : Bool) : recast φ b = b := rfl

@[simp] theorem recast_nil : recast φ ([] : List α) = [] := rfl

@[simp] theorem recast_cons (a : α) (as : List α) :
    recast φ (a :: as) = recast φ a :: recast φ as := rfl

@[simp] theorem recast_append (as bs : List α) :
    recast φ (as ++ bs) = recast φ as ++ recast φ bs := List.map_append

@[simp] theorem recast_none : recast φ (none : Option α) = none := rfl

@[simp] theorem recast_some (a : α) : recast φ (some a) = some (recast φ a) := rfl

@[simp] theorem recast_flatten (as : List (List α)) :
    recast φ as.flatten = (recast φ as).flatten := by
  induction as with
  | nil => rfl
  | cons a as ih => rw [List.flatten_cons, recast_append, ih]; rfl

end

@[simp] theorem recast_token (t : Token) : t.recast φ = recast φ t := rfl

@[simp] theorem recast_node (t : Token) (cs : List Tree) :
    recast φ (Tree.node t cs) = .node (recast φ t) (recast φ cs) :=
  congrArg (Tree.node _) (Tree.recastAll_eq φ cs)

@[simp] theorem recast_leaf (t : Token) : recast φ (Tree.leaf t) = .leaf (recast φ t) := rfl

@[simp] theorem recast_label (l : Label) (location : Location) :
    recast φ (l.token location) = l.token (φ.location location) := rfl

@[simp] theorem kind_recast (t : Token) : (recast φ t).kind = t.kind := rfl

@[simp] theorem location_recast (t : Token) : (recast φ t).location = φ.location t.location := rfl

@[simp] theorem kind_recast_tree (t : Tree) : (recast φ t).kind = t.kind := by
  cases t
  rfl

@[simp] theorem recast_asPrefixOperator (t : Token) :
    recast φ t.asPrefixOperator = (recast φ t).asPrefixOperator := by
  unfold Token.asPrefixOperator
  by_cases minus : t.kind = .binary .minus
  · simp only [kind_recast, minus, if_true]
    simp [recast, Token.recast, minus, Kind.isFixed]
  · simp only [kind_recast, minus, if_false]

theorem Ending.outcome_recast (e : Ending) : (e.recast φ).outcome = e.outcome.recast φ := by
  cases e <;> rfl

theorem TokenStream.next_recast (s : TokenStream) :
    (s.recast φ).next = (s.next.1.recast φ, s.next.2.recast φ) := by
  obtain ⟨pending, ending⟩ := s
  cases pending with
  | nil => exact Prod.ext (ending.outcome_recast φ) rfl
  | cons o os => rfl

/-- A recast reader takes the recast tokens. -/
theorem Parse.advance_recast (r : Reader) :
    Parse.advance (r.recast φ) = Parse.recastResult φ (Parse.advance r) := by
  have more := r.stream.next_recast φ
  unfold Parse.advance
  cases next : r.stream.next with
  | mk o s =>
    rw [next] at more
    simp only [Reader.recast, more]
    cases o <;> rfl

end AresSyntax
