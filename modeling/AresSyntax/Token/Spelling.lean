import AresSyntax.Token.Kind

/-!
How kinds are spelled in a text.

Main definitions:
* `Kind.symbol?`: the spelling of an operator, bracket or separator;
* `symbols`, `reservedWords`: the two tables of fixed spellings.
-/
namespace AresSyntax

def BinaryOp.spelling : BinaryOp → String
  | .or => "||"
  | .and => "&&"
  | .equal => "=="
  | .notEqual => "!="
  | .less => "<"
  | .lessEqual => "<="
  | .greater => ">"
  | .greaterEqual => ">="
  | .bitOr => "|"
  | .bitXor => "^"
  | .bitAnd => "&"
  | .shiftLeft => "<<"
  | .shiftRight => ">>"
  | .range => ".."
  | .plus => "+"
  | .minus => "-"
  | .times => "*"
  | .divide => "/"
  | .modulo => "%"

def AssignOp.spelling : AssignOp → String
  | .assign => "="
  | .bitOr => "|="
  | .bitXor => "^="
  | .bitAnd => "&="
  | .shiftLeft => "<<="
  | .shiftRight => ">>="
  | .plus => "+="
  | .minus => "-="
  | .times => "*="
  | .divide => "/="
  | .modulo => "%="

def Mark.spelling : Mark → String
  | .dot => "."
  | .bang => "!"
  | .tilde => "~"
  | .openParen => "("
  | .closeParen => ")"
  | .openBracket => "["
  | .closeBracket => "]"
  | .openBrace => "\x7b"
  | .closeBrace => "\x7d"
  | .comma => ","
  | .semicolon => ";"
  | .arrow => "=>"
  | .newline => "\n"

def Keyword.spelling : Keyword → String
  | .defWord => "def"
  | .ifWord => "if"
  | .elifWord => "elif"
  | .elseWord => "else"
  | .forWord => "for"
  | .whileWord => "while"
  | .untilWord => "until"
  | .inWord => "in"
  | .importWord => "import"
  | .debugWord => "debug"
  | .returnWord => "return"

/-- The literals that are words. -/
def Literal.word? : Literal → Option String
  | .trueWord => some "true"
  | .falseWord => some "false"
  | .nilWord => some "nil"
  | _ => none

namespace Kind

/-- The spelling of an operator, bracket or separator. The line end is read on its own and is
not one of these. -/
def symbol? : Kind → Option String
  | binary op => some op.spelling
  | assign op => some op.spelling
  | mark .newline => none
  | mark m => some m.spelling
  | _ => none

/-- The spelling of a word that is no identifier. -/
def word? : Kind → Option String
  | keyword k => some k.spelling
  | literal l => l.word?
  | _ => none

end Kind

/-- The spellings of operators, brackets and separators, with their kinds. -/
def symbols : List (List Char × Kind) :=
  Kind.all.filterMap fun k => k.symbol?.map fun s => (s.toList, k)

/-- The reserved words, with their kinds. -/
def reservedWords : List (List Char × Kind) :=
  Kind.all.filterMap fun k => k.word?.map fun s => (s.toList, k)

/-- The length of the longest spelling in `symbols`. -/
def longestSymbol : Nat := (symbols.map (·.1.length)).foldl max 0

end AresSyntax
