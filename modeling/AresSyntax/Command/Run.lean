import AresSyntax.Command.Arguments
import AresSyntax.Source.Files
import AresSyntax.Source.Module
import AresSyntax.Grammar.Program

/-!
Runs of the command: the tree of a source text as nested lists, or its tokens line by line.

Main definitions:
* `Output`: what a run leaves behind;
* `Request.answer`: the output for a request and the text of its source;
* `run`: the output for a command line.
-/
namespace AresSyntax.Command

/-- What a run leaves behind. -/
structure Output where
  status : Nat
  stdout : String
  stderr : String
  deriving DecidableEq, Repr

/-- What breaks a run off without an output of its own. An integer may do so in the middle of a
listing, behind what was printed. -/
inductive Crash
  | nullInPath
  | undecodable
  | tooManyDigits {printed : String} (count : Nat)
  deriving DecidableEq, Repr

/-- What a run printed before it broke off. -/
def Crash.printed : Crash → String
  | nullInPath | undecodable => ""
  | @tooManyDigits printed _ => printed

def usageLine : String := "usage: ares-parse [-h] [--tokens] [--name NAME] [-v] source\n"

def helpText : String :=
  usageLine ++ "\n" ++
  "Parse an Ares source file and print its syntax tree\n\n" ++
  "positional arguments:\n" ++
  "  source         Source file to parse, or '-' for stdin\n\n" ++
  "options:\n" ++
  "  -h, --help     show this help message and exit\n" ++
  "  --tokens       Print the token stream instead of the tree\n" ++
  "  --name NAME    Module name used in diagnostics (defaults to the path)\n" ++
  "  -v, --verbose  Enable debug logging and detailed diagnostics\n\n" ++
  "Examples:\n" ++
  "    ares-parse main.ares                 # Print the syntax tree\n" ++
  "    ares-parse --tokens main.ares        # Print one token per line\n" ++
  "    echo 'a = 1 + 2' | ares-parse -      # Read from stdin\n" ++
  "        \n"

/-- Help is what was asked for, anything else a failure. -/
def Stop.output : Stop → Output
  | help => ⟨0, helpText, ""⟩
  | usage e => ⟨2, "", usageLine ++ "ares-parse: error: " ++ e.message ++ "\n"⟩

namespace Request

/-- Holds if the source is the standard input. -/
def readsInput (r : Request) : Bool := r.source = "-"

/-- The module that diagnostics name: by the given name, else by what is read. -/
def sourceModule (r : Request) : SourceModule :=
  if r.readsInput then ⟨if r.name = "" then "<stdin>" else r.name, none⟩
  else ⟨if r.name = "" then r.source else r.name, some r.source⟩

/-- A line of the log, which only a verbose run shows. -/
def logLine (r : Request) (logger message : String) : String :=
  if r.verbose then "DEBUG " ++ logger ++ ": " ++ message ++ "\n" else ""

/-- The output of a run that ends with a diagnostic, behind what was printed and logged. -/
def failed (r : Request) (printed logged : String) (d : Diagnostic) : Output :=
  ⟨1, printed, logged ++ if r.verbose then d.detailed else d.render ++ "\n"⟩

/-- The output of a run that ends where no token can be read. -/
def readFailed (r : Request) (printed logged : String) : ReadFault → Except Crash Output
  | .tooManyDigits count => .error (@Crash.tooManyDigits printed count)
  | .lexical e location =>
    let d := e.diagnostic location
    let line := r.logLine "ares.lexer.errors" ("scanner error " ++ e.code ++ " at " ++ d.render)
    .ok (r.failed printed (logged ++ line) d)

/-- The output of a run that ends at a token that does not fit. -/
def grammarFailed (r : Request) (logged : String) (e : GrammarError) (found : Token) : Output :=
  let d := e.diagnostic found
  let line := r.logLine "ares.parser.errors" ("parse error " ++ e.code ++ " at " ++ d.render)
  r.failed "" (logged ++ line) d

/-- A line of the token listing. -/
def tokenLine (t : Token) : String :=
  toString t.location.line ++ ":" ++ toString t.location.column ++ "\t" ++ t.render ++ "\n"

/-- Lists the tokens of a stream up to the first fault. -/
def listTokens (r : Request) (s : TokenStream) : Except Crash Output :=
  let (tokens, fault) := s.listing
  let printed := String.join (tokens.map tokenLine)
  match fault with
  | none => .ok ⟨0, printed, ""⟩
  | some f => r.readFailed printed "" f

/-- Prints the tree of a stream. -/
def printTree (r : Request) (s : TokenStream) : Except Crash Output :=
  match Reader.start s with
  | .error f => r.readFailed "" "" f
  | .ok reader =>
    let started := r.logLine "ares.parser.parser" ("Parsing module " ++ r.sourceModule.name)
    match (reader.program .standard).1 with
    | .error (.reading f) => r.readFailed "" started f
    | .error (.grammar e found) => .ok (r.grammarFailed started e found)
    | .ok t =>
      let finished := r.logLine "ares.parser.parser"
        ("Parsed " ++ toString t.children.length ++ " top-level statements from " ++ r.sourceModule.name)
      .ok ⟨0, t.render ++ "\n", started ++ finished⟩

/-- The output for a source text. -/
def answerText (r : Request) (text : String) : Except Crash Output :=
  let s := (Cursor.ofText r.sourceModule.name text).stream
  if r.tokens then r.listTokens s else r.printTree s

/-- The output for the text of the source, which there may not be. -/
def answer (r : Request) : Except LoadError String → Except Crash Output
  | .ok text => r.answerText text
  | .error .nullInPath => .error .nullInPath
  | .error .undecodable => .error .undecodable
  | .error (.unreadable e) =>
    .ok ⟨2, "", "ares-parse: cannot read " ++ r.source ++ ": " ++ e.message r.source ++ "\n"⟩

end Request

/-- The output for a command line, a standard input and the files that paths may name. -/
def run (words : List String) (input : ByteArray) (files : FileSet) : Except Crash Output :=
  match Request.read words with
  | .error stop => .ok stop.output
  | .ok r => r.answer (if r.readsInput then textOf input else files.load r.source)

end AresSyntax.Command
