/-
  Evaluation.

  `evalNode` gives the value of an expression from the values of its parts, and `eval` ties the
  knot.  What the parts are evaluated in is left open: `m` is `Run`, or any other monad that has its
  effects.

  Calls can be nested only so deep, and all of them share one limit: the evaluations of parts, the
  calls of functions and what these call.  `eval room` evaluates where `room` calls can still be
  nested, and `go used` evaluates a part after `used` further calls.
-/
import ExprLang.Eval.Builtin
import ExprLang.Eval.Debugger

namespace ExprLang

/-- How a part of an expression is evaluated in a scope. -/
abbrev Evaluator (m : Type → Type) := Expr → Nat → m Value

/-! ## Nested calls -/

/-- What can be done after `used` of `room` nested calls: `node room rest` does it where `room` calls
    can still be nested after its own, and does further calls by `rest`. -/
def nestedAfter {X : Type} (tooDeep : X) (node : Nat → (Nat → X) → X) : Nat → Nat → X
  | 0, _ => tooDeep
  | room + 1, 0 => node room (nestedAfter tooDeep node room)
  | room + 1, used + 1 => nestedAfter tooDeep node room used

/-- What can be done where `room` calls can be nested. -/
def nested {X : Type} (tooDeep : X) (node : Nat → (Nat → X) → X) (room : Nat) : X :=
  nestedAfter tooDeep node room 0

/-! ## Operators -/

/-- The value of an operator before an operand. -/
def UnOp.apply (op : UnOp) (v : Value) : Run Value :=
  match op with
  | .not => Run.ofExcept do return .bool !(← v.truth)
  | .plus =>
    match v with
    | .nan _ => return v
    | v => Run.fresh (v.withSign false)
  | .minus => Run.fresh (v.withSign true)

/-- The value of an operator between two operands, both of which are always evaluated. -/
def BinOp.apply (op : BinOp) (a b : Value) : Run Value :=
  match op with
  | .plus => Run.fresh (a.arith .add b)
  | .minus => Run.fresh (a.arith .sub b)
  | .times => Run.fresh (a.arith .mul b)
  | .divide => Run.fresh (a.arith .div b)
  | .lt => Run.fresh (a.compare .lt b)
  | .gt => Run.fresh (a.compare .gt b)
  | .le => Run.fresh (a.compare .le b)
  | .ge => Run.fresh (a.compare .ge b)
  | .eqs | .eq => Run.fresh (a.compare .eq b)
  | .neqs | .neq | .xor => Run.fresh (a.compare .ne b)
  | .and => Run.ofExcept do return if ← a.truth then b else a
  | .or => Run.ofExcept do return if ← a.truth then a else b
  | .nand => Run.ofExcept do return .bool !(← (if ← a.truth then b else a).truth)
  | .nor => Run.ofExcept do return .bool !(← (if ← a.truth then a else b).truth)
  | .imp => Run.ofExcept do return if ← a.truth then b else .bool true

/-! ## Calls -/

section
variable [ArrayLibrary]

/-- Binds the parameters of a closure; the last one takes the rest if `rest` is set. -/
def bindParams (scope : Nat) (rest : Bool) : List String → List Value → Run Unit
  | [], _ => return
  | [p], args => do
    if rest then
      let v ← Run.fresh (return (← ArrayLibrary.array args).toValue)
      Run.modifyScopes fun f => f.set scope p v
    else
      match args with
      | v :: _ => Run.modifyScopes fun f => f.set scope p v
      | [] => return
  | p :: ps, args =>
    match args with
    | v :: vs => do
      Run.modifyScopes fun f => f.set scope p v
      bindParams scope rest ps vs
    | [] => if rest then throw (.outOfRange "tuple") else return

/-- How many calls lie between the call of a closure and the evaluation of its body: that of the
    object and that of its function. -/
def closureCalls : Nat := 2

variable {m : Type → Type} [Monad m] [MonadLiftT Run m]

def callOther (room : Nat) (go : Nat → Evaluator m) (f : Value) (args : List Value) : m Value :=
  match f with
  | .closure scope params body rest locals => do
    let inner ← Run.push scope (params ++ locals.getD [])
    bindParams inner rest params args
    go closureCalls body inner
  | .builtin f => f.run room args
  | v => (throw (.notCallable v.typeName) : Run Value)

def call (room : Nat) (go : Nat → Evaluator m) (f : Value) (args : List Value) : m Value :=
  match f, args with
  | .builtin .map, [g, l] =>
    ListOps.map (fun left v => callOther left (fun used => go (room - left + used)) g [v]) room l
  | f, args => callOther room go f args

/-! ## Loops -/

def repeatTimes (body : m Value) : Nat → Value → m Value
  | 0, last => return last
  | n + 1, _ => do repeatTimes body n (← body)

def repeatWhile (condition body : m Value) : Nat → Value → m Value
  | 0, _ => (throw .endless : Run Value)
  | n + 1, last => do
    if ← Run.ofExcept (← condition).truth then repeatWhile condition body n (← body)
    else return last

end

def roundLimit : Nat := Nat.pow 2 62

/-! ## Procedures -/

/-- Opens a scope for the calls of a procedure: a child of the outermost scope, with the built-ins
    of its own. -/
def openProc (scope : Nat) : Run Nat := do
  let inner ← Run.push ((← get).scopes.root scope) []
  defineBuiltins inner
  return inner

/-! ## Structs -/

/-- The value `count` levels up from a struct. -/
def ancestor (scopes : Forest Value Nat) : Nat → Value → Except Fault Value
  | 0, v => return v
  | n + 1, .struct id =>
    ancestor scopes n (match scopes.parent? id with
      | some p => .struct p
      | none => .null)
  | _ + 1, v => throw (.noAttribute v.typeName "parent")

/-- Makes a struct whose members have no values yet. -/
def newStruct (parent : Option Value) (names : List String) : Run Nat := do
  let id ← match parent with
    | none => Run.addScope Forest.addRoot
    | some (.struct p) => Run.push p []
    | some v => throw (.noAttribute v.typeName "push")
  Run.modifyScopes fun f => names.foldl (fun f n => f.bind id n .null) f
  return id

/-- Makes a struct whose members have no values yet, and the scope that they are given their values
    in. -/
def openStruct (parent : Option Value) (names : List String) (scope : Nat) : Run (Nat × Nat) := do
  let id ← newStruct parent names
  let inner ← Run.push scope []
  Run.modifyScopes fun f => f.setMark inner (some id)
  return (id, inner)

/-! ## Expressions -/

/-- The name an assignment binds; a bare name has none to ask for. -/
def Target.bound : Target → Except Fault String
  | .var _ name => return name
  | .bare _ => throw (.noAttribute "str" "name")

section
variable [ArrayLibrary]

/-- The value of an expression from those of its parts, where `room` calls can still be nested.  The
    items of arrays and dictionaries and the arguments of calls are evaluated one call deeper. -/
def evalNode {m : Type → Type} [Monad m] [MonadLiftT Run m] (room : Nat) (go : Nat → Evaluator m)
    (e : Expr) (scope : Nat) : m Value := do
  match e with
  | .number _ text => return .float (floatOfNumeral text)
  | .bool _ b => return .bool b
  | .string _ s | .char _ s => return .text s
  | .array _ es =>
    let vs ← es.mapM (go 1 · scope)
    Run.fresh (return (← ArrayLibrary.array vs).toValue)
  | .dict _ entries =>
    let pairs ← entries.foldlM (fun pairs (k, v) => do
      let key ← go 1 k scope
      let value ← go 1 v scope
      match key.unhashable? with
      | some t => (throw (.unhashable t) : Run _)
      | none => return Value.insert pairs key value) []
    return .dict pairs
  | .unary _ op a => op.apply (← go 0 a scope)
  | .binary _ op a b =>
    let left ← go 0 a scope
    let right ← go 0 b scope
    op.apply left right
  | .index _ a b =>
    let left ← go 0 a scope
    let right ← go 0 b scope
    Run.part left (left.index (← Run.world).scopes right)
  | .assign _ target value =>
    let v ← go 0 value scope
    let name ← Run.ofExcept target.bound
    Run.modifyScopes fun f => f.set scope name v
    return v
  | .var pos name =>
    match ← Run.ofExcept ((← Run.world).scopes.lookup room scope name) with
    | some v => return v
    | none => (throw (.unknownVariable name pos) : Run Value)
  | .lock _ _ body => go 0 body scope
  | .letIn _ bindings body =>
    let names ← Run.ofExcept (bindings.mapM fun b => b.target.bound)
    let inner ← Run.push scope names
    for b in bindings do
      let _ ← go 0 (.assign b.pos b.target b.value) inner
    go 0 body inner
  | .sequence _ parts => parts.foldlM (fun _ e => go 0 e scope) .null
  | .loop _ count body =>
    let n ← Run.ofExcept (← go 0 count scope).toInt
    repeatTimes (go 0 body scope) n.toNat .null
  | .whileDo _ condition body =>
    repeatWhile (go 0 condition scope) (go 0 body scope) roundLimit .null
  | .doWhile _ condition body =>
    let first ← go 0 body scope
    repeatWhile (go 0 condition scope) (go 0 body scope) roundLimit first
  | .ifThen _ condition yes no =>
    if ← Run.ofExcept (← go 0 condition scope).truth then go 0 yes scope
    else
      match no with
      | some e => go 0 e scope
      | none => return .null
  | .lambda _ params body rest => return .closure scope params body rest none
  | .proc _ params locals body =>
    let inner ← openProc scope
    return .closure inner params body false (some locals)
  | .call _ f args =>
    let callee ← go 0 f scope
    let values ← args.mapM (go 1 · scope)
    call room go callee values
  | .struct _ fields parent =>
    let above ← parent.mapM (go 0 · scope)
    let (id, inner) ← openStruct above (fields.map (·.name)) scope
    for field in fields do
      let _ ← go 0 (.memberAssign field.pos field.name field.value) inner
    return .struct id
  | .member pos owner name up =>
    let v ← go 0 owner scope
    let scopes := (← Run.world).scopes
    let v ← Run.ofExcept (ancestor scopes up v)
    match ← Run.ofExcept (v.member? room scopes name) with
    | some m => return m
    | none => (throw (.unknownMember name pos) : Run Value)
  | .memberAssign pos name value =>
    match (← Run.world).scopes.mark? scope with
    | none => (throw (.unknownMember name pos) : Run Value)
    | some id =>
      if ((← Run.world).scopes.vars id).has name then
        let v ← go 0 value scope
        Run.modifyScopes fun f => f.bind id name v
        return v
      else (throw (.unknownMember name pos) : Run Value)
  | .this _ =>
    match (← Run.world).scopes.mark? scope with
    | some id => return .struct id
    | none => return .null
  | .importFile _ path =>
    let e ← Run.ofExcept ((parseFile (room - 1) (← Run.world).files path).mapError .read)
    let root ← Run.addScope Forest.addRoot
    defineBuiltins root
    go 0 e root
  | .trap _ => return .null

/-- Evaluates an expression in a scope, after the debugger has stopped at it if it does. -/
def eval : Nat → Evaluator Run :=
  nested (fun _ _ => throw .tooDeep) fun room go e scope => do
    if (← get).debugger.stopsAt (some e) then
      Run.stop (go 1 · scope) (some e.pos) scope
    evalNode room go e scope

def evalProgram (e : Option Expr) (scope : Nat) : Run Value := do
  match e with
  | some e => eval depthLimit e scope
  | none =>
    if (← get).debugger.stopsAt none then
      Run.stop (eval (depthLimit - 2) · scope) none scope
    throw .nothing

end

end ExprLang
