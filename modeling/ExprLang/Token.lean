/-
  Tokens of the expression language.

  A token has a kind, a text, and the line and offset at which it starts.  The text of a reserved
  word is its upper-case spelling, whatever letter case the source uses; the text of a string or
  character token is what stands between the quotes.
-/
import ExprLang.Text.Quoted

namespace ExprLang

/-- The reserved words. -/
inductive Keyword where
  | true_ | false_
  | eq | neq | xor | not | and | or | nand | nor | imp
  | lock | local_ | in_
  | if_ | then_ | else_ | loop | for_ | while_ | do_
  | fun_ | proc
  | struct | extend | set | this
  | import_ | trap
deriving DecidableEq, Repr

/-- The upper-case spelling of a reserved word. -/
def Keyword.text : Keyword → String
  | true_ => "TRUE" | false_ => "FALSE"
  | eq => "EQ" | neq => "NEQ" | xor => "XOR" | not => "NOT" | and => "AND" | or => "OR"
  | nand => "NAND" | nor => "NOR" | imp => "IMP"
  | lock => "LOCK" | local_ => "LOCAL" | in_ => "IN"
  | if_ => "IF" | then_ => "THEN" | else_ => "ELSE" | loop => "LOOP" | for_ => "FOR"
  | while_ => "WHILE" | do_ => "DO"
  | fun_ => "FUN" | proc => "PROC"
  | struct => "STRUCT" | extend => "EXTEND" | set => "SET" | this => "THIS"
  | import_ => "IMPORT" | trap => "TRAP"

/-- All reserved words. -/
def Keyword.all : List Keyword := [
  true_, false_, eq, neq, xor, not, and, or, nand, nor, imp, lock, local_, in_, if_, then_, else_,
  loop, for_, while_, do_, fun_, proc, struct, extend, set, this, import_, trap]

/-- The reserved word with a given upper-case spelling. -/
def Keyword.ofUpper? (s : String) : Option Keyword := all.find? (·.text == s)

/-- Operators and punctuation. -/
inductive Mark where
  /-- `->` -/
  | arrow
  /-- `\` -/
  | backslash
  | plus | minus | times | divide
  | lt | gt | le | ge
  /-- `==` -/
  | eqs
  /-- `!=` -/
  | neqs
  | lparen | rparen | lbracket | rbracket | lbrace | rbrace
  | colon | semicolon | comma | dot
  /-- `=` -/
  | assign
deriving DecidableEq, Repr

/-- How an operator or punctuation mark is written. -/
def Mark.text : Mark → String
  | arrow => "->" | backslash => "\\"
  | plus => "+" | minus => "-" | times => "*" | divide => "/"
  | lt => "<" | gt => ">" | le => "<=" | ge => ">=" | eqs => "==" | neqs => "!="
  | lparen => "(" | rparen => ")" | lbracket => "[" | rbracket => "]"
  | lbrace => "\x7b" | rbrace => "\x7d"
  | colon => ":" | semicolon => ";" | comma => "," | dot => "." | assign => "="

/-- All marks, the longer ones first. -/
def Mark.all : List Mark := [
  arrow, le, ge, eqs, neqs, backslash, plus, minus, times, divide, lt, gt, lparen, rparen,
  lbracket, rbracket, lbrace, rbrace, colon, semicolon, comma, dot, assign]

/-- The kinds of token. -/
inductive Kind where
  | number | string | char | ident
  | word (w : Keyword)
  | mark (m : Mark)
deriving DecidableEq, Repr

def Mark.name : Mark → String
  | arrow => "RIGHT_ARROW" | backslash => "BACKSLASH"
  | plus => "PLUS" | minus => "MINUS" | times => "TIMES" | divide => "DIVIDE"
  | lt => "LT" | gt => "GT" | le => "LE" | ge => "GE" | eqs => "EQS" | neqs => "NEQS"
  | lparen => "LPAREN" | rparen => "RPAREN" | lbracket => "LBRACKET" | rbracket => "RBRACKET"
  | lbrace => "LBRACE" | rbrace => "RBRACE"
  | colon => "COLON" | semicolon => "SEMICOLON" | comma => "COMMA" | dot => "DOT"
  | assign => "ASSIGN"

def Kind.name : Kind → String
  | number => "NUMBER" | string => "STRING" | char => "CHAR" | ident => "IDENT"
  | word w => w.text
  | mark m => m.name

/-- A token and where it starts. -/
structure Token where
  kind : Kind
  text : String
  /-- One plus the number of newlines before the token. -/
  line : Nat
  /-- The number of characters before the token. -/
  offset : Nat
deriving DecidableEq, Repr

def Token.describe (t : Token) : String :=
  s!"LexToken({t.kind.name},{Text.quoted t.text},{t.line},{t.offset})"

end ExprLang
