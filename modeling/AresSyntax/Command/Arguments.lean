import AresSyntax.Command.Options

/-!
What a command line asks for.

Main definitions:
* `Request`: the settings of a run;
* `Request.read`: the request of a command line, or why there is none.
-/
namespace AresSyntax.Command

/-- What to read and how to report on it. -/
structure Request where
  source : String
  name : String
  tokens : Bool
  verbose : Bool
  deriving DecidableEq, Repr

/-- Why a command line starts no run. -/
inductive Stop
  | help
  | usage (e : UsageError)
  deriving DecidableEq, Repr

/-- What is known of a request while words are read: its settings, and the words that belong
nowhere, latest first. -/
structure Draft where
  source : Option String := none
  name : String := ""
  tokens : Bool := false
  verbose : Bool := false
  surplus : List String := []

namespace Draft

/-- Sets an option that takes no value. Asking for help ends everything else. -/
def apply (d : Draft) : Flag → Except Stop Draft
  | .help => .error .help
  | .tokens => .ok { d with tokens := true }
  | .verbose => .ok { d with verbose := true }
  | .name => .ok d

/-- The options in one word: a short option may be followed by the letters of further ones. The
whole word is looked at before any of them is set. -/
def cluster (f : Flag) : List Char → Except Stop (List Flag)
  | [] => .ok [f]
  | c :: cs =>
    match spellings.lookup (String.ofList ['-', c]) with
    | some g => do return f :: (← cluster g cs)
    | none => .error (.usage (.valueIgnored f (String.ofList (c :: cs))))

/-- Sets the options of one word, none of which takes a value. -/
def applyWord (d : Draft) (f : Flag) (short : Bool) : Option String → Except Stop Draft
  | none => d.apply f
  | some value =>
    if short && value ≠ "" then do (← cluster f value.toList).foldlM apply d
    else .error (.usage (.valueIgnored f value))

/-- Sets the name. Two dashes are no name. -/
def setName (d : Draft) (name : String) : Draft :=
  { d with name := if name = "--" then "" else name }

/-- Puts a word with those that belong nowhere. -/
def pass (d : Draft) (word : String) : Draft := { d with surplus := word :: d.surplus }

/-- Reads on. The first word that is no option is the source. Two dashes beside it are dropped,
elsewhere they are a word that belongs nowhere. -/
def readFrom (d : Draft) : List Word → Except Stop Draft
  | [] => .ok d
  | .plain s :: .dashes :: words =>
    if d.source.isNone then { d with source := some s }.readFrom words
    else ((d.pass s).pass "--").readFrom words
  | .dashes :: .plain s :: words =>
    if d.source.isNone then { d with source := some s }.readFrom words
    else ((d.pass "--").pass s).readFrom words
  | .plain s :: words =>
    if d.source.isNone then { d with source := some s }.readFrom words
    else (d.pass s).readFrom words
  | .dashes :: words => (d.pass "--").readFrom words
  | .unknown s :: words => (d.pass s).readFrom words
  | .option .name _ (some value) :: words => (d.setName value).readFrom words
  | .option .name _ none :: .plain value :: words => (d.setName value).readFrom words
  | .option .name _ none :: _ => .error (.usage (.valueMissing .name))
  | .option f short value :: words => do (← d.applyWord f short value).readFrom words

/-- The request, if nothing is missing and nothing is left over. -/
def finish (d : Draft) : Except Stop Request :=
  match d.source, d.surplus.reverse with
  | none, _ => .error (.usage .sourceMissing)
  | some source, [] => .ok { source, name := d.name, tokens := d.tokens, verbose := d.verbose }
  | some _, words => .error (.usage (.unrecognized words))

end Draft

/-- The request of a command line. What all words are is settled before any of them counts. -/
def Request.read (words : List String) : Except Stop Request :=
  match Word.readAll words with
  | .error e => .error (.usage e)
  | .ok words => do ({} : Draft).readFrom words >>= Draft.finish

end AresSyntax.Command
