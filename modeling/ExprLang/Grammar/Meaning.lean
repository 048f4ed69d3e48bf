/-
  From derivation trees to expressions.

  Parentheses leave no trace.  `fun f x -> e` stands for `f = local f = \x -> e in f`, with bare
  targets; `set .x = e` adds a setter `set_x` to a struct.
-/
import ExprLang.Grammar.Tree

namespace ExprLang.Grammar

def Lines.pos (ls : Lines) : Pos := ⟨[], ls.first, ls.last⟩

/-- `f = local f = lambda in f` -/
def functionExpr (p : Pos) (f : String) (params : List String) (body : Expr) (rest : Bool) : Expr :=
  .assign p (.bare f) (.letIn p [⟨p, .bare f, .lambda p params body rest⟩] (.var p f))

def setter (p : Pos) (x : String) : Field Expr :=
  ⟨p, "set_" ++ x, .lambda p [x] (.memberAssign p x (.var p x)) false⟩

namespace Tree

def text? : Tree → Option String
  | leaf t => some t.text
  | node _ _ _ => none

def dots? : Tree → Option Nat
  | node .dotsOne _ [_] => some 0
  | node .dotsMore _ [_, d] => d.dots?.map (1 + ·)
  | _ => none

def names? : Tree → Option (List String)
  | node .namesOne _ [x] => return [← x.text?]
  | node .namesMore _ [x, _, xs] => return (← x.text?) :: (← xs.names?)
  | _ => none

mutual

def expr? : Tree → Option Expr
  | node .number ls [t] => return .number ls.pos (← t.text?)
  | node .importFile ls [_, t] => return .importFile ls.pos (← t.text?)
  | node (.bool b) ls [_] => some (.bool ls.pos b)
  | node .string ls [t] => return .string ls.pos (← t.text?)
  | node .char ls [t] => return .char ls.pos (← t.text?)
  | node .var ls [t] => return .var ls.pos (← t.text?)
  | node .trap ls [_] => some (.trap ls.pos)
  | node .this ls [_] => some (.this ls.pos)
  | node (.unary op) ls [_, a] => return .unary ls.pos op (← a.expr?)
  | node (.binary op) ls [a, _, b] => return .binary ls.pos op (← a.expr?) (← b.expr?)
  | node .index ls [a, _, b, _] => return .index ls.pos (← a.expr?) (← b.expr?)
  | node .paren _ [_, a, _] => a.expr?
  | node .loop ls [_, a, _, b] => return .loop ls.pos (← a.expr?) (← b.expr?)
  | node .whileDo ls [_, a, _, b] => return .whileDo ls.pos (← a.expr?) (← b.expr?)
  | node .doWhile ls [_, b, _, a] => return .doWhile ls.pos (← a.expr?) (← b.expr?)
  | node .ifThen ls [_, a, _, b] => return .ifThen ls.pos (← a.expr?) (← b.expr?) none
  | node .ifThenElse ls [_, a, _, b, _, c] =>
    return .ifThen ls.pos (← a.expr?) (← b.expr?) (some (← c.expr?))
  | node .block ls [_, es, _] => return .sequence ls.pos (← es.sequence?)
  | node .ofAssignment _ [a] => do
    let ⟨p, target, value⟩ ← a.assignment?
    return .assign p target value
  | node .lock ls [_, xs, _, a] => return .lock ls.pos (← xs.names?) (← a.expr?)
  | node .letIn ls [_, bs, _, a] => return .letIn ls.pos (← bs.bindings?) (← a.expr?)
  | node .lambdaNone ls [_, _, a] => return .lambda ls.pos [] (← a.expr?) false
  | node .lambda ls [_, xs, _, a] => return .lambda ls.pos (← xs.names?) (← a.expr?) false
  | node .lambdaRest ls [_, xs, _, _, _, _, a] =>
    return .lambda ls.pos (← xs.names?) (← a.expr?) true
  | node .functionNone ls [_, f, _, a] =>
    return functionExpr ls.pos (← f.text?) [] (← a.expr?) false
  | node .function ls [_, f, xs, _, a] =>
    return functionExpr ls.pos (← f.text?) (← xs.names?) (← a.expr?) false
  | node .functionRest ls [_, f, xs, _, _, _, _, a] =>
    return functionExpr ls.pos (← f.text?) (← xs.names?) (← a.expr?) true
  | node .proc ls [_, _, xs, _, ys, _, a] =>
    return .proc ls.pos (← xs.names?) (← ys.names?) (← a.expr?)
  | node .procLocals ls [_, _, _, ys, _, a] => return .proc ls.pos [] (← ys.names?) (← a.expr?)
  | node .procParams ls [_, _, xs, _, _, a] => return .proc ls.pos (← xs.names?) [] (← a.expr?)
  | node .procNone ls [_, _, _, _, a] => return .proc ls.pos [] [] (← a.expr?)
  | node .callNone ls [f, _, _] => return .call ls.pos (← f.expr?) []
  | node .call ls [f, _, as, _] => return .call ls.pos (← f.expr?) (← as.arguments?)
  | node .arrayEmpty ls [_, _] => some (.array ls.pos [])
  | node .array ls [_, as, _] => return .array ls.pos (← as.arguments?)
  | node .dictEmpty ls [_, _] => some (.dict ls.pos [])
  | node .dict ls [_, es, _] => return .dict ls.pos (← es.entries?)
  | node .structEmpty ls [_, _, _] => some (.struct ls.pos [] none)
  | node .struct ls [_, _, fs, _] => return .struct ls.pos (← fs.fields?) none
  | node .extendEmpty ls [_, a, _, _] => return .struct ls.pos [] (some (← a.expr?))
  | node .extend ls [_, a, _, fs, _] =>
    return .struct ls.pos (← fs.fields?) (some (← a.expr?))
  | node .ownMember ls [d, x] => return .member ls.pos (.this ls.pos) (← x.text?) (← d.dots?)
  | node .member ls [a, d, x] => return .member ls.pos (← a.expr?) (← x.text?) (← d.dots?)
  | node .ofMemberAssignment _ [a] => do
    let ⟨p, name, value⟩ ← a.memberAssignment?
    return .memberAssign p name value
  | _ => none

/-- `x = e` -/
def assignment? : Tree → Option (Binding Expr)
  | node .assignment ls [x, _, a] =>
    return ⟨ls.pos, .var x.lines.pos (← x.text?), ← a.expr?⟩
  | _ => none

/-- `.x = e` -/
def memberAssignment? : Tree → Option (Field Expr)
  | node .memberAssignment ls [_, x, _, a] => return ⟨ls.pos, ← x.text?, ← a.expr?⟩
  | _ => none

/-- `a; b; c` -/
def sequence? : Tree → Option (List Expr)
  | node .sequenceOne _ [a] => return [← a.expr?]
  | node .sequenceMore _ [as, _, a] => return (← as.sequence?) ++ [← a.expr?]
  | _ => none

/-- `a, b, c` -/
def arguments? : Tree → Option (List Expr)
  | node .argumentsOne _ [a] => return [← a.expr?]
  | node .argumentsMore _ [a, _, as] => return (← a.expr?) :: (← as.arguments?)
  | _ => none

/-- `x = a, y = b` -/
def bindings? : Tree → Option (List (Binding Expr))
  | node .bindingsOne _ [a] => return [← a.assignment?]
  | node .bindingsMore _ [a, _, as] => return (← a.assignment?) :: (← as.bindings?)
  | _ => none

/-- `k : v` -/
def entry? : Tree → Option (Expr × Expr)
  | node .entry _ [k, _, v] => return (← k.expr?, ← v.expr?)
  | _ => none

/-- `k : v, l : w` -/
def entries? : Tree → Option (List (Expr × Expr))
  | node .entriesOne _ [e] => return [← e.entry?]
  | node .entriesMore _ [e, _, es] => return (← e.entry?) :: (← es.entries?)
  | _ => none

/-- One initialiser; with `set` it brings its setter along. -/
def field? : Tree → Option (List (Field Expr))
  | node .field _ [a] => return [← a.memberAssignment?]
  | node .settableField ls [_, a] => do
    let f ← a.memberAssignment?
    return [f, setter ls.pos f.name]
  | _ => none

/-- The initialisers of a struct. -/
def fields? : Tree → Option (List (Field Expr))
  | node .fieldsOne _ [f] => f.field?
  | node .fieldsMore _ [f, _, fs] => return (← f.field?) ++ (← fs.fields?)
  | _ => none

end

end Tree

end ExprLang.Grammar
