/-
  Stops of the debugger.

  At a stop the debugger shows what it watches and obeys commands: `s` goes one step on, `c` goes on
  without stopping, `v` shows all variables, `w` watches an expression and `e` evaluates one.  How
  expressions are evaluated is left open: `m` is any monad that has the effects of a `Run`.
-/
import ExprLang.Eval.World

namespace ExprLang

inductive DebugCommand where
  | step
  | go
  | vars
  | watch (text : String)
  | eval (text : String)
  | other
deriving DecidableEq, Repr

def DebugCommand.ofLine (line : String) : DebugCommand :=
  match (Text.splitAt ' ' line.toList).map String.ofList with
  | ["s"] => step
  | ["c"] => go
  | ["v"] | ["var"] | ["vars"] => vars
  | "w" :: words => watch (" ".intercalate words)
  | "$" :: words | "e" :: words | "eval" :: words => eval (" ".intercalate words)
  | _ => other

def Debugger.stopsAt (d : Debugger) (e : Option Expr) : Bool :=
  !d.stopped && (d.stepping || match e with
    | some (.trap _) => true
    | _ => false)

/-- What the debugger asks with at a place. -/
def Pos.prompt (p : Pos) : String := p.start.1 ++ " line " ++ p.start.2 ++ "> "

namespace Run

def modifyDebugger (change : Debugger → Debugger) : Run Unit :=
  modify fun w => { w with debugger := change w.debugger }

def parsed (text : String) : Run (Option Expr) := ofExcept ((parse text).mapError .read)

def showVars : Bindings Value → Run Unit
  | [] => return
  | (name, v) :: vars => do
    writeLine (String.ofList (Text.padRight 24 name.toList) ++ " = " ++ (← textOf v))
    showVars vars

/-- Shows the variables of a scope and its ancestors, its own first. -/
def dump (scope : Nat) : Run Unit := do
  writeLine "========== VAR DUMP =========="
  showVars ((← get).scopes.visible scope)

variable {m : Type → Type} [Monad m] [MonadLiftT Run m]

def evalIfAny (eval : Expr → m Value) : Option Expr → m Value
  | some e => eval e
  | none => (throw .nothing : Run Value)

/-- Obeys commands until one ends the stop; each takes a line of the input. -/
def obey (eval : Expr → m Value) (pos : Option Pos) (scope : Nat) : Nat → m Unit
  | 0 => (throw .endOfInput : Run Unit)
  | n + 1 => do
    for (text, e) in (← world).debugger.watches do
      let v ← evalIfAny eval e
      write (text ++ " = ")
      writeLine (← textOf v)
    match pos with
    | none => (throw (.noAttribute "NoneType" "position") : Run Unit)
    | some p =>
      match DebugCommand.ofLine (← readLine p.prompt) with
      | .step => return
      | .go => modifyDebugger fun d => { d with stepping := false }
      | .vars =>
        dump scope
        obey eval pos scope n
      | .watch text =>
        let e ← parsed text
        modifyDebugger fun d => { d with watches := d.watches.set text e }
        obey eval pos scope n
      | .eval text =>
        let v ← evalIfAny eval (← parsed text)
        writeLine (← textOf v)
        obey eval pos scope n
      | .other => obey eval pos scope n

def stop (eval : Expr → m Value) (pos : Option Pos) (scope : Nat) : m Unit := do
  modifyDebugger fun d => { d with stepping := true, stopped := true }
  obey eval pos scope ((← world).input.length + 1)
  modifyDebugger fun d => { d with stopped := false }

end Run

end ExprLang
