/-!
The kinds of token: literals with identifiers, reserved words, binary and assignment operators,
marks, the labels of tree nodes, negation and the end of the text.

Main definitions:
* `Kind`: a kind, by its family;
* `Kind.name`, `Kind.ofName?`: the name shown in listings, and the kind of a name;
* `Kind.all`: every kind in the order of listings.
-/
namespace AresSyntax

/-- Kinds that stand for themselves in an expression. -/
inductive Literal
  | string | integer | float | trueWord | falseWord | nilWord | ident
  deriving DecidableEq, Repr

/-- Reserved words, but for the words that are literals. -/
inductive Keyword
  | defWord | ifWord | elifWord | elseWord | forWord | whileWord | untilWord | inWord
  | importWord | debugWord | returnWord
  deriving DecidableEq, Repr

/-- Operators between two operands that group to the left. -/
inductive BinaryOp
  | or | and | equal | notEqual | less | lessEqual | greater | greaterEqual
  | bitOr | bitXor | bitAnd | shiftLeft | shiftRight | range
  | plus | minus | times | divide | modulo
  deriving DecidableEq, Repr

/-- Operators between a target and a value. They group to the right. -/
inductive AssignOp
  | assign | bitOr | bitXor | bitAnd | shiftLeft | shiftRight
  | plus | minus | times | divide | modulo
  deriving DecidableEq, Repr

/-- The remaining signs: prefix operators, brackets, separators and the line end. -/
inductive Mark
  | dot | bang | tilde | openParen | closeParen | openBracket | closeBracket
  | openBrace | closeBrace | comma | semicolon | arrow | newline
  deriving DecidableEq, Repr

/-- Kinds that only a tree has. -/
inductive Label
  | block | subDecl | subLiteral | subParams | arrayDecl | hashDecl | hashElem
  | call | subscript | elifClauses
  deriving DecidableEq, Repr

/-- The kind of a token. `negate` is the minus sign before an operand, which a tree tells apart
from subtraction. -/
inductive Kind
  | literal (l : Literal)
  | keyword (k : Keyword)
  | binary (op : BinaryOp)
  | assign (op : AssignOp)
  | mark (m : Mark)
  | label (l : Label)
  | negate
  | endOfText
  deriving DecidableEq, Repr

def Literal.name : Literal → String
  | .string => "STRING"
  | .integer => "INTEGER"
  | .float => "FLOAT"
  | .trueWord => "TRUE"
  | .falseWord => "FALSE"
  | .nilWord => "NIL"
  | .ident => "IDENT"

def Keyword.name : Keyword → String
  | .defWord => "DEF"
  | .ifWord => "IF"
  | .elifWord => "ELIF"
  | .elseWord => "ELSE"
  | .forWord => "FOR"
  | .whileWord => "WHILE"
  | .untilWord => "UNTIL"
  | .inWord => "IN"
  | .importWord => "IMPORT"
  | .debugWord => "DEBUG"
  | .returnWord => "RETURN"

def BinaryOp.name : BinaryOp → String
  | .or => "LOGICAL_OR"
  | .and => "LOGICAL_AND"
  | .equal => "EQL"
  | .notEqual => "NOT_EQL"
  | .less => "LT"
  | .lessEqual => "LE"
  | .greater => "GT"
  | .greaterEqual => "GE"
  | .bitOr => "BITWISE_OR"
  | .bitXor => "BITWISE_XOR"
  | .bitAnd => "BITWISE_AND"
  | .shiftLeft => "LEFT_SHIFT"
  | .shiftRight => "RIGHT_SHIFT"
  | .range => "DOTDOT"
  | .plus => "PLUS"
  | .minus => "MINUS"
  | .times => "MUL"
  | .divide => "DIV"
  | .modulo => "MODULO"

def AssignOp.name : AssignOp → String
  | .assign => "ASSIGN"
  | .bitOr => "BITWISE_OR_ASSIGN"
  | .bitXor => "BITWISE_XOR_ASSIGN"
  | .bitAnd => "BITWISE_AND_ASSIGN"
  | .shiftLeft => "LEFT_SHIFT_ASSIGN"
  | .shiftRight => "RIGHT_SHIFT_ASSIGN"
  | .plus => "PLUS_ASSIGN"
  | .minus => "MINUS_ASSIGN"
  | .times => "MUL_ASSIGN"
  | .divide => "DIV_ASSIGN"
  | .modulo => "MODULO_ASSIGN"

def Mark.name : Mark → String
  | .dot => "DOT"
  | .bang => "BANG"
  | .tilde => "COMPL"
  | .openParen => "LPAREN"
  | .closeParen => "RPAREN"
  | .openBracket => "LBRACK"
  | .closeBracket => "RBRACK"
  | .openBrace => "LBRACE"
  | .closeBrace => "RBRACE"
  | .comma => "COMMA"
  | .semicolon => "SEMICOLON"
  | .arrow => "ASSIGN_ARROW"
  | .newline => "NEWLINE"

def Label.name : Label → String
  | .block => "BLOCK"
  | .subDecl => "SUB_DECL"
  | .subLiteral => "SUB_LITERAL"
  | .subParams => "SUB_PARAMS"
  | .arrayDecl => "ARRAY_DECL"
  | .hashDecl => "HASH_DECL"
  | .hashElem => "HASH_ELEM"
  | .call => "CALL"
  | .subscript => "SUBSCRIPT"
  | .elifClauses => "ELIF_CLAUSES"

def Literal.all : List Literal :=
  [.string, .integer, .float, .trueWord, .falseWord, .nilWord, .ident]

def Keyword.all : List Keyword :=
  [.defWord, .ifWord, .elifWord, .elseWord, .forWord, .whileWord, .untilWord, .inWord,
   .importWord, .debugWord, .returnWord]

def AssignOp.all : List AssignOp :=
  [.assign, .bitOr, .bitXor, .bitAnd, .shiftLeft, .shiftRight, .plus, .minus, .times, .divide,
   .modulo]

def Label.all : List Label :=
  [.block, .subDecl, .subLiteral, .subParams, .arrayDecl, .hashDecl, .hashElem, .call,
   .subscript, .elifClauses]

/-- The binary operators that are listed before the dots. -/
def BinaryOp.beforeDots : List BinaryOp :=
  [.or, .and, .equal, .notEqual, .less, .lessEqual, .greater, .greaterEqual, .bitOr, .bitXor,
   .bitAnd, .shiftLeft, .shiftRight]

def BinaryOp.arithmetic : List BinaryOp := [.plus, .minus, .times, .divide, .modulo]

def BinaryOp.all : List BinaryOp := beforeDots ++ .range :: arithmetic

def Mark.afterArithmetic : List Mark :=
  [.bang, .tilde, .openParen, .closeParen, .openBracket, .closeBracket, .openBrace, .closeBrace,
   .comma, .semicolon, .arrow, .newline]

def Mark.all : List Mark := .dot :: afterArithmetic

namespace Kind

def name : Kind → String
  | literal l => l.name
  | keyword k => k.name
  | binary op => op.name
  | assign op => op.name
  | mark m => m.name
  | label l => l.name
  | negate => "NEGATE"
  | endOfText => "EOF"

/-- Every kind, in the order of listings: the signs stand between the reserved words and the
assignments, with the single dot before the double one. -/
def all : List Kind :=
  Literal.all.map literal ++ Keyword.all.map keyword ++ BinaryOp.beforeDots.map binary ++
    [mark .dot, binary .range] ++ BinaryOp.arithmetic.map binary ++
    Mark.afterArithmetic.map mark ++ AssignOp.all.map assign ++ Label.all.map label ++ [negate, endOfText]

/-- The kind of a name. -/
def ofName? (s : String) : Option Kind := all.find? (·.name == s)

def isLiteral : Kind → Bool
  | literal _ => true
  | _ => false

def isKeyword : Kind → Bool
  | keyword _ => true
  | _ => false

/-- Holds for the operators that compare the order of their operands. -/
def isComparison : Kind → Bool
  | binary .less | binary .lessEqual | binary .greater | binary .greaterEqual => true
  | _ => false

/-- Holds for the operators of multiplication and division. -/
def isTermOperator : Kind → Bool
  | binary .times | binary .divide | binary .modulo => true
  | _ => false

def isAssignment : Kind → Bool
  | assign _ => true
  | _ => false

/-- Holds for the kinds that no text spells and only a tree has. -/
def isImaginary : Kind → Bool
  | label _ | negate => true
  | _ => false

/-- Holds for the operators that may stand before an operand. -/
def isUnaryOperator : Kind → Bool
  | binary .minus | mark .bang | mark .tilde => true
  | _ => false

/-- Holds for the kinds of node that may stand on the left of an assignment. -/
def isAssignable : Kind → Bool
  | literal .ident | label .subscript => true
  | _ => false

/-- Holds for what may follow a `return` without a value. -/
def endsReturn : Kind → Bool
  | mark .newline | mark .semicolon | mark .closeBrace | endOfText => true
  | _ => false

end Kind

/-- The text that a label's token shows: its name, but for the clauses of a conditional. -/
def Label.mnemonic : Label → String
  | .elifClauses => "ELIF"
  | l => l.name

end AresSyntax
