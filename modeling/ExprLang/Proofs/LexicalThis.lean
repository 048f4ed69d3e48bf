/-
  What `this` means, by the text of a program.

  `evalLexical` evaluates as `eval` does, but it hands down the struct that `this` means and never
  asks a scope for it:

  * the parts of an expression, and all that the debugger evaluates at it, get the struct that the
    expression has;
  * the fields of a struct expression get the new struct;
  * the body of a function gets the struct that the scope of its closure belongs to (`Value.owner`),
    whoever calls it;
  * an imported file gets none.
-/
import ExprLang.Proofs.Runs

namespace ExprLang

/-- The struct that the scope of a closure belongs to. -/
def Value.owner (scopes : Forest Value Nat) : Value → Option Nat
  | .closure scope _ _ _ _ => scopes.mark? scope
  | _ => none

/-- The function whose body a call evaluates. -/
def called (f : Value) (args : List Value) : Value :=
  match f, args with
  | .builtin .map, [g, _] => g
  | f, _ => f

/-- How parts are evaluated after further calls, in which `this` is a given struct. -/
abbrev LexicalEvaluator := Nat → Option Nat → Evaluator Run

/-- Calls a function; in its body `this` is the struct that the scope of the closure belongs to. -/
def callLexical (room : Nat) (go : LexicalEvaluator) (f : Value) (args : List Value) :
    Run Value := do
  let own := (called f args).owner (← Run.world).scopes
  call room (fun used => go used own) f args

/-- The value of an expression in which `this` is the struct `own`, from those of its parts. -/
def lexicalNode (room : Nat) (go : LexicalEvaluator) (own : Option Nat) (e : Expr) (scope : Nat) :
    Run Value :=
  match e with
  | .this _ => return (own.map Value.struct).getD .null
  | .call _ f args => do
    let callee ← go 0 own f scope
    let values ← args.mapM (go 1 own · scope)
    callLexical room go callee values
  | .struct _ fields parent => do
    let above ← parent.mapM (go 0 own · scope)
    let (id, inner) ← openStruct above (fields.map (·.name)) scope
    for field in fields do
      let _ ← go 0 (some id) (.memberAssign field.pos field.name field.value) inner
    return .struct id
  | .importFile _ path => do
    let e ← Run.ofExcept ((parseFile (room - 1) (← Run.world).files path).mapError .read)
    let root ← Run.addScope Forest.addRoot
    defineBuiltins root
    go 0 none e root
  | e => evalNode room (fun used => go used own) e scope

def evalLexical : Nat → Option Nat → Evaluator Run :=
  nested (fun _ _ _ => throw .tooDeep) fun room go own e scope => do
    let _ ← (do
      if (← Run.world).debugger.stopsAt (some e) then
        Run.stop (go 1 own · scope) (some e.pos) scope : Run Unit)
    lexicalNode room go own e scope

/-- Evaluates a program, which may be empty.  It belongs to no struct. -/
def evalProgramLexical (e : Option Expr) (scope : Nat) : Run Value :=
  match e with
  | some e => evalLexical depthLimit none e scope
  | none => do
    let _ ← (do
      if (← Run.world).debugger.stopsAt none then
        Run.stop (evalLexical (depthLimit - 2) none · scope) none scope : Run Unit)
    throw .nothing

/-- But for `this`, an evaluator that takes no notice of the struct evaluates as always. -/
theorem lexicalNode_const (room : Nat) (go : Nat → Evaluator Run) (own : Option Nat) {e : Expr}
    (scope : Nat) (he : ∀ pos, e ≠ .this pos) :
    lexicalNode room (fun used _ => go used) own e scope = evalNode room go e scope := by
  cases e with
  | this pos => exact absurd rfl (he pos)
  | _ => rfl

end ExprLang
