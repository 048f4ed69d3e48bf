/-
  The full text of an expression.

  Messages about expressions that a compiler or the evaluator cannot handle show the whole node,
  with the names of its parts.
-/
import ExprLang.Expr
import ExprLang.Text.Quoted

namespace ExprLang

/-- A position as messages show it. -/
def Pos.describe (p : Pos) : String :=
  let parts := p.files.map Text.quoted ++ [toString p.first, toString p.last]
  "(" ++ ", ".intercalate parts ++ ")"

def bracketed (texts : List String) : String := "[" ++ ", ".intercalate texts ++ "]"

def describeNames (names : List String) : String := bracketed (names.map Text.quoted)

def describeNode (node : String) (p : Pos) (parts : List (String × String)) : String :=
  let shown := (("position", p.describe) :: parts).map fun (name, text) => name ++ "=" ++ text
  node ++ "(" ++ ", ".intercalate shown ++ ")"

/-- An assignment target as messages show it. -/
def Target.describe : Target → String
  | .var p name => describeNode "VariableExpression" p [("name", Text.quoted name)]
  | .bare name => Text.quoted name

def describeAssign (p : Pos) (target : Target) (value : String) : String :=
  describeNode "AssignExpression" p [("var", target.describe), ("expression", value)]

def describeMemberAssign (p : Pos) (name value : String) : String :=
  describeNode "MemberAssignExpression" p [("name", Text.quoted name), ("expr", value)]

/-- A truth value as messages show it. -/
def describeBool (b : Bool) : String := if b then "True" else "False"

mutual

def Expr.describe : Expr → String
  | .number p s => describeNode "NumberLiteral" p [("value", Text.quoted s)]
  | .bool p b => describeNode "BoolLiteral" p [("value", if b then "'TRUE'" else "'FALSE'")]
  | .string p s => describeNode "StringLiteral" p [("value", Text.quoted s)]
  | .char p s => describeNode "CharLiteral" p [("value", Text.quoted s)]
  | .array p es => describeNode "ArrayLiteral" p [("elements", bracketed (describeList es))]
  | .dict p es => describeNode "DictLiteral" p [("elements", bracketed (describeEntries es))]
  | .unary p o a =>
    describeNode "UnaryOperatorExpression" p
      [("operator", Text.quoted o.text), ("operand", a.describe)]
  | .binary p o a b =>
    describeNode "BinaryOperatorExpression" p
      [("operator", Text.quoted o.text), ("operands", s!"({a.describe}, {b.describe})")]
  | .index p a b =>
    describeNode "BinaryOperatorExpression" p
      [("operator", "'[]'"), ("operands", s!"({a.describe}, {b.describe})")]
  | .assign p t a => describeAssign p t a.describe
  | .var p n => describeNode "VariableExpression" p [("name", Text.quoted n)]
  | .lock p ns a =>
    describeNode "LockExpression" p [("names", describeNames ns), ("body", a.describe)]
  | .letIn p bs a =>
    describeNode "LocalExpression" p
      [("assignments", bracketed (describeBindings bs)), ("body", a.describe)]
  | .sequence p es =>
    describeNode "SequenceExpression" p [("expressions", bracketed (describeList es))]
  | .loop p a b => describeNode "LoopExpression" p [("count", a.describe), ("body", b.describe)]
  | .whileDo p a b =>
    describeNode "WhileExpression" p [("condition", a.describe), ("body", b.describe)]
  | .doWhile p a b =>
    describeNode "DoWhileExpression" p [("condition", a.describe), ("body", b.describe)]
  | .ifThen p a b c =>
    describeNode "IfExpression" p
      [("condition", a.describe), ("then_body", b.describe), ("else_body", describeOption c)]
  | .lambda p ns a r =>
    describeNode "LambdaExpression" p
      [("arg_names", describeNames ns), ("body", a.describe), ("rest_arg", describeBool r)]
  | .proc p ns ls a =>
    describeNode "ProcedureExpression" p
      [("arg_names", describeNames ns), ("local_names", describeNames ls), ("body", a.describe)]
  | .call p f as =>
    describeNode "CallExpression" p
      [("f", f.describe), ("arg_exprs", bracketed (describeList as))]
  | .struct p fs a =>
    describeNode "StructExpression" p
      [("initializers", bracketed (describeFields fs)), ("parent_expr", describeOption a)]
  | .member p a n u =>
    describeNode "MemberAccessExpression" p
      [("expr", a.describe), ("member", Text.quoted n), ("up_count", toString u)]
  | .memberAssign p n a => describeMemberAssign p n a.describe
  | .this p => describeNode "ThisExpression" p []
  | .importFile p s => describeNode "ImportExpression" p [("path", Text.quoted s)]
  | .trap p => describeNode "TrapExpression" p []

def Expr.describeList : List Expr → List String
  | [] => []
  | a :: as => a.describe :: describeList as

def Expr.describeEntries : List (Expr × Expr) → List String
  | [] => []
  | (k, v) :: es => s!"({k.describe}, {v.describe})" :: describeEntries es

def Expr.describeBindings : List (Binding Expr) → List String
  | [] => []
  | ⟨p, t, a⟩ :: bs => describeAssign p t a.describe :: describeBindings bs

/-- The texts of some initialisers. -/
def Expr.describeFields : List (Field Expr) → List String
  | [] => []
  | ⟨p, n, a⟩ :: fs => describeMemberAssign p n a.describe :: describeFields fs

/-- The text of a part that may be missing. -/
def Expr.describeOption : Option Expr → String
  | none => "None"
  | some a => a.describe

end

end ExprLang
