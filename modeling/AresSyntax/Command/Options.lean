import AresSyntax.Text.Quoted

/-!
The words of the command line, each by itself: an option with or without a value, the two dashes
that end the options, or anything else.

Main definitions:
* `Flag`: the options, with their spellings;
* `Word.read`: what a word is;
* `Word.readAll`: what all words are, where nothing behind two dashes is an option.
-/
namespace AresSyntax.Command

/-- The options of the command. -/
inductive Flag
  | help | tokens | name | verbose
  deriving DecidableEq, Repr

/-- The spellings of the options, in the order in which messages list them. -/
def spellings : List (String × Flag) :=
  [("-h", .help), ("--help", .help), ("--tokens", .tokens), ("--name", .name),
   ("-v", .verbose), ("--verbose", .verbose)]

/-- All spellings of an option, with slashes between them. -/
def Flag.title (f : Flag) : String :=
  "/".intercalate ((spellings.filter (·.2 = f)).map (·.1))

/-- Why the words of a command line are refused. -/
inductive UsageError
  | ambiguous (word : String) (candidates : List String)
  | valueMissing (f : Flag)
  | valueIgnored (f : Flag) (value : String)
  | sourceMissing
  | unrecognized (words : List String)
  deriving DecidableEq, Repr

def UsageError.message : UsageError → String
  | ambiguous word candidates =>
    "ambiguous option: " ++ word ++ " could match " ++ ", ".intercalate candidates
  | valueMissing f => "argument " ++ f.title ++ ": expected one argument"
  | valueIgnored f value =>
    "argument " ++ f.title ++ ": ignored explicit argument " ++ Text.quoted value
  | sourceMissing => "the following arguments are required: source"
  | unrecognized words => "unrecognized arguments: " ++ " ".intercalate words

/-- A word of the command line. An option may have a value in the same word; `short` tells whether
it is spelled with a single dash. -/
inductive Word
  | plain (text : String)
  | dashes
  | option (f : Flag) (short : Bool) (value : Option String)
  | unknown (text : String)
  deriving DecidableEq, Repr

namespace Word

/-- The zeros of the decimal digits of all scripts. The other digits follow theirs. -/
def zeros : List Nat :=
  [0x30, 0x660, 0x6f0, 0x7c0, 0x966, 0x9e6, 0xa66, 0xae6, 0xb66, 0xbe6, 0xc66, 0xce6, 0xd66, 0xde6,
   0xe50, 0xed0, 0xf20, 0x1040, 0x1090, 0x17e0, 0x1810, 0x1946, 0x19d0, 0x1a80, 0x1a90, 0x1b50,
   0x1bb0, 0x1c40, 0x1c50, 0xa620, 0xa8d0, 0xa900, 0xa9d0, 0xa9f0, 0xaa50, 0xabf0, 0xff10, 0x104a0,
   0x10d30, 0x11066, 0x110f0, 0x11136, 0x111d0, 0x112f0, 0x11450, 0x114d0, 0x11650, 0x116c0,
   0x11730, 0x118e0, 0x11950, 0x11c50, 0x11d50, 0x11da0, 0x16a60, 0x16ac0, 0x16b50, 0x1d7ce,
   0x1d7d8, 0x1d7e2, 0x1d7ec, 0x1d7f6, 0x1e140, 0x1e2f0, 0x1e950, 0x1fbf0]

def isDigit (c : Char) : Bool := zeros.any fun first => first ≤ c.toNat && c.toNat < first + 10

/-- Holds for one or more digits; a line end may follow. -/
def isNumeral (cs : List Char) : Bool :=
  !(cs.takeWhile isDigit).isEmpty && (cs.dropWhile isDigit) ∈ [[], ['\n']]

/-- Holds for a dash before a whole number, or before a decimal with digits behind its point. -/
def isNegativeNumber : List Char → Bool
  | '-' :: cs =>
    isNumeral cs || match cs.dropWhile isDigit with
      | '.' :: part => isNumeral part
      | _ => false
  | _ => false

/-- The parts of a word around its first equals sign, if it has one. -/
def splitValue (cs : List Char) : String × Option String :=
  (String.ofList (cs.takeWhile (· ≠ '=')),
    match cs.dropWhile (· ≠ '=') with
    | [] => none
    | _ :: value => some (String.ofList value))

/-- The long spellings that start with `stem`. -/
def completions (stem : String) : List (String × Flag) :=
  spellings.filter fun s => stem.toList.isPrefixOf s.1.toList

/-- A word that starts with a dash and spells no option: a negative number or a word with a blank
is an ordinary word. -/
def unspelled (word : String) : Word :=
  if isNegativeNumber word.toList || word.toList.contains ' ' then .plain word else .unknown word

/-- A word with two dashes that spells no option in full: the beginning of one spelling, with or
without a value. -/
def abbreviated (word : String) : Except UsageError Word :=
  let (stem, value) := splitValue word.toList
  match completions stem with
  | [] => .ok (unspelled word)
  | [(_, f)] => .ok (.option f false value)
  | several => .error (.ambiguous word (several.map (·.1)))

/-- What a word is. A spelling in full goes before one with a value, and this before an
abbreviation; behind a short spelling the rest of the word is its value. -/
def read (word : String) : Except UsageError Word :=
  let (stem, value) := splitValue word.toList
  match spellings.lookup word, spellings.lookup stem, word.toList with
  | some f, _, _ => .ok (.option f (word.length = 2) none)
  | none, some f, _ => .ok (.option f (stem.length = 2) value)
  | none, none, '-' :: '-' :: _ => abbreviated word
  | none, none, '-' :: c :: rest =>
    match spellings.lookup (String.ofList ['-', c]) with
    | some f => .ok (.option f true (some (String.ofList rest)))
    | none => .ok (unspelled word)
  | none, none, _ => .ok (.plain word)

/-- What all words are. The first two dashes end the options. -/
def readAll : List String → Except UsageError (List Word)
  | [] => .ok []
  | word :: words =>
    if word = "--" then .ok (.dashes :: words.map .plain)
    else do
      let w ← read word
      return w :: (← readAll words)

end Word
end AresSyntax.Command
