/-
  The grammar of the expression language.

  A phrase is what a rule defines; a rule has a phrase on its left side and a list of tokens and
  phrases on its right side.  The grammar by itself is ambiguous; which of the readings of a text
  is meant is settled by the automaton (`ExprLang.Grammar.Table`).

  * `Derives` says that a list of token kinds can be derived from a list of symbols.
-/
import ExprLang.Expr
import ExprLang.Token

namespace ExprLang.Grammar

/-- What the rules define. -/
inductive Phrase where
  | expression
  /-- `x = e` -/
  | assignment
  /-- `.x = e` -/
  | memberAssignment
  /-- `a; b; c` -/
  | sequence
  /-- `x, y, z` -/
  | names
  /-- `a, b, c` -/
  | arguments
  /-- `x = a, y = b` -/
  | bindings
  | dots
  /-- `k : v` -/
  | entry
  /-- `k : v, l : w` -/
  | entries
  /-- `.x = e` or `set .x = e` -/
  | field
  | fields
deriving DecidableEq, Repr

/-- Tokens and phrases. -/
inductive Symbol where
  | token (k : Kind)
  | phrase (p : Phrase)
deriving DecidableEq, Repr

/-- The token of an operator between operands. -/
def kindOf : BinOp → Kind
  | .plus => .mark .plus
  | .minus => .mark .minus
  | .times => .mark .times
  | .divide => .mark .divide
  | .lt => .mark .lt
  | .gt => .mark .gt
  | .le => .mark .le
  | .ge => .mark .ge
  | .eqs => .mark .eqs
  | .neqs => .mark .neqs
  | .eq => .word .eq
  | .neq => .word .neq
  | .and => .word .and
  | .or => .word .or
  | .nand => .word .nand
  | .nor => .word .nor
  | .imp => .word .imp
  | .xor => .word .xor

/-- The token of an operator before an operand. -/
def unaryKindOf : UnOp → Kind
  | .not => .word .not
  | .plus => .mark .plus
  | .minus => .mark .minus

inductive Rule where
  /-- The whole text is one expression. -/
  | start
  | number | importFile | sequenceMore | sequenceOne | var | loop | namesOne | namesMore
  | fieldsOne | fieldsMore | ofAssignment | assignment | forLoop | block | field | settableField
  | argumentsOne | argumentsMore | whileDo | string | bindingsOne | bindingsMore | doWhile | char
  | lambdaNone | lambda | lambdaRest | structEmpty | struct | lock | ifThen | ifThenElse
  | arrayEmpty | array | extendEmpty | extend | index | letIn | trap | entry | functionNone
  | function | functionRest | paren | dotsOne | dotsMore | entriesOne | entriesMore | ownMember
  | member | dictEmpty | dict | proc | ofMemberAssignment | memberAssignment | procLocals
  | procParams | this | procNone | callNone | call
  | bool (b : Bool)
  | unary (op : UnOp)
  | binary (op : BinOp)
deriving DecidableEq, Repr

def Rule.lhs : Rule → Phrase
  | assignment => .assignment
  | memberAssignment => .memberAssignment
  | sequenceMore | sequenceOne => .sequence
  | namesOne | namesMore => .names
  | argumentsOne | argumentsMore => .arguments
  | bindingsOne | bindingsMore => .bindings
  | dotsOne | dotsMore => .dots
  | entry => .entry
  | entriesOne | entriesMore => .entries
  | field | settableField => .field
  | fieldsOne | fieldsMore => .fields
  | _ => .expression

section
open ExprLang.Grammar.Symbol

private abbrev kw (w : Keyword) : Symbol := token (.word w)
private abbrev mk (m : Mark) : Symbol := token (.mark m)
private abbrev tok (k : Kind) : Symbol := token k
private abbrev nt (p : Phrase) : Symbol := phrase p

def Rule.rhs : Rule → List Symbol
  | start => [nt .expression]
  | bool b => [kw (if b then .true_ else .false_)]
  | unary op => [tok (unaryKindOf op), nt .expression]
  | binary op => [nt .expression, tok (kindOf op), nt .expression]
  | number => [tok .number]
  | importFile => [kw .import_, tok .string]
  | sequenceMore => [nt .sequence, mk .semicolon, nt .expression]
  | sequenceOne => [nt .expression]
  | var => [tok .ident]
  | loop => [kw .loop, nt .expression, kw .do_, nt .expression]
  | namesOne => [tok .ident]
  | namesMore => [tok .ident, mk .comma, nt .names]
  | fieldsOne => [nt .field]
  | fieldsMore => [nt .field, mk .semicolon, nt .fields]
  | ofAssignment => [nt .assignment]
  | assignment => [tok .ident, mk .assign, nt .expression]
  | forLoop =>
    [kw .for_, nt .assignment, mk .semicolon, nt .expression, mk .semicolon, nt .assignment,
      kw .do_, nt .expression]
  | block => [mk .lbrace, nt .sequence, mk .rbrace]
  | field => [nt .memberAssignment]
  | settableField => [kw .set, nt .memberAssignment]
  | argumentsOne => [nt .expression]
  | argumentsMore => [nt .expression, mk .comma, nt .arguments]
  | whileDo => [kw .while_, nt .expression, kw .do_, nt .expression]
  | string => [tok .string]
  | bindingsOne => [nt .assignment]
  | bindingsMore => [nt .assignment, mk .comma, nt .bindings]
  | doWhile => [kw .do_, nt .expression, kw .while_, nt .expression]
  | char => [tok .char]
  | lambdaNone => [mk .backslash, mk .arrow, nt .expression]
  | lambda => [mk .backslash, nt .names, mk .arrow, nt .expression]
  | lambdaRest => [mk .backslash, nt .names, mk .dot, mk .dot, mk .dot, mk .arrow, nt .expression]
  | structEmpty => [kw .struct, mk .lbrace, mk .rbrace]
  | struct => [kw .struct, mk .lbrace, nt .fields, mk .rbrace]
  | lock => [kw .lock, nt .names, kw .in_, nt .expression]
  | ifThen => [kw .if_, nt .expression, kw .then_, nt .expression]
  | ifThenElse => [kw .if_, nt .expression, kw .then_, nt .expression, kw .else_, nt .expression]
  | arrayEmpty => [mk .lbracket, mk .rbracket]
  | array => [mk .lbracket, nt .arguments, mk .rbracket]
  | extendEmpty => [kw .extend, nt .expression, mk .lbrace, mk .rbrace]
  | extend => [kw .extend, nt .expression, mk .lbrace, nt .fields, mk .rbrace]
  | index => [nt .expression, mk .lbracket, nt .expression, mk .rbracket]
  | letIn => [kw .local_, nt .bindings, kw .in_, nt .expression]
  | trap => [kw .trap]
  | entry => [nt .expression, mk .colon, nt .expression]
  | functionNone => [kw .fun_, tok .ident, mk .arrow, nt .expression]
  | function => [kw .fun_, tok .ident, nt .names, mk .arrow, nt .expression]
  | functionRest =>
    [kw .fun_, tok .ident, nt .names, mk .dot, mk .dot, mk .dot, mk .arrow, nt .expression]
  | paren => [mk .lparen, nt .expression, mk .rparen]
  | dotsOne => [mk .dot]
  | dotsMore => [mk .dot, nt .dots]
  | entriesOne => [nt .entry]
  | entriesMore => [nt .entry, mk .comma, nt .entries]
  | ownMember => [nt .dots, tok .ident]
  | member => [nt .expression, nt .dots, tok .ident]
  | dictEmpty => [mk .lbrace, mk .rbrace]
  | dict => [mk .lbrace, nt .entries, mk .rbrace]
  | proc => [kw .proc, mk .lparen, nt .names, mk .rparen, nt .names, mk .arrow, nt .expression]
  | ofMemberAssignment => [nt .memberAssignment]
  | memberAssignment => [nt .dots, tok .ident, mk .assign, nt .expression]
  | procLocals => [kw .proc, mk .lparen, mk .rparen, nt .names, mk .arrow, nt .expression]
  | procParams => [kw .proc, mk .lparen, nt .names, mk .rparen, mk .arrow, nt .expression]
  | this => [kw .this]
  | procNone => [kw .proc, mk .lparen, mk .rparen, mk .arrow, nt .expression]
  | callNone => [nt .expression, mk .lparen, mk .rparen]
  | call => [nt .expression, mk .lparen, nt .arguments, mk .rparen]

end

/-- The kinds `ks` can be derived from the symbols `ss`. -/
inductive Derives : List Symbol → List Kind → Prop where
  | nil : Derives [] []
  | token {k : Kind} {ss : List Symbol} {ks : List Kind} (rest : Derives ss ks) :
      Derives (.token k :: ss) (k :: ks)
  | phrase {r : Rule} {ss : List Symbol} {ks ls : List Kind}
      (body : Derives r.rhs ks) (rest : Derives ss ls) :
      Derives (.phrase r.lhs :: ss) (ks ++ ls)

end ExprLang.Grammar
