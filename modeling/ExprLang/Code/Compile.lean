/-
  Compiling an expression for one of the two machines.

  * `compile` gives the intermediate code of an expression, with the global variables it made;
  * `Compiled.program` turns intermediate code into a whole assembly program.
-/
import ExprLang.CMa.Generate
import ExprLang.CMa.Assembly
import ExprLang.MaMa.Generate
import ExprLang.MaMa.Assembly

namespace ExprLang

/-- The machines. -/
inductive Vm where
  | cma | mama
deriving DecidableEq, Repr

/-- What generators start from. -/
def GenState.initial : GenState := ⟨.empty, 0, []⟩

/-- Intermediate code, and the variables of its outermost scope. -/
structure Compiled where
  code : List Cell
  globals : Slots

/-- Runs a generator in an outermost scope of its own, keeping the counters. -/
def Gen.inScope (globals : Slots) (g : Gen (List Cell)) : Gen Compiled := do
  modify fun s => { s with globals := globals }
  let code ← g
  return ⟨code, (← get).globals⟩

/-- The intermediate code of an expression, which may be missing; functions list the variables
    that they capture as `order` says. -/
def codeBy (order : MaMa.CaptureOrder) (vm : Vm) (e : Option Expr) : Gen (List Cell) :=
  match vm with
  | .cma => return CMa.Item.cells (← CMa.valueOrZero [] e)
  | .mama => return (← MaMa.codeOrZeroBy order .basic [] 0 e).map MaMa.Instr.cell

def compileBy (order : MaMa.CaptureOrder) (vm : Vm) (e : Option Expr) : Gen Compiled :=
  Gen.inScope [] (codeBy order vm e)

def compile (vm : Vm) (e : Option Expr) : Gen Compiled := compileBy MaMa.ascending vm e

def assemble : Vm → Cell → Except AsmFault String
  | .cma, c => CMa.assemble c
  | .mama, c => MaMa.assemble c

def programText (vm : Vm) (code : String) (globals : Nat) : String :=
  match vm with
  | .cma => CMa.program code globals
  | .mama => MaMa.program code

def Compiled.program (vm : Vm) (c : Compiled) : Except AsmFault String :=
  return programText vm (← assemble vm (.block c.code)) c.globals.length

end ExprLang
