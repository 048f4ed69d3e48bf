/-
  What a user asks for on the command line.

  The first argument names an action, and the others belong to it.
-/
import ExprLang.Command.Arguments
import ExprLang.Code.Compile

namespace ExprLang

/-- The stages that a compilation can end in. -/
inductive Stage where
  | ir | asm | obj | exe
deriving DecidableEq, Repr

structure CompileRequest where
  file : String
  outfile : String
  vm : Vm
  emit : Option Stage
  keepAsm : Bool
deriving DecidableEq, Repr

structure InterpretRequest where
  file : Option String
  repl : Bool
  stopOnError : Bool
deriving DecidableEq, Repr

/-- What a user asks for. -/
inductive Request where
  | interpret (r : InterpretRequest)
  | compile (r : CompileRequest)
deriving DecidableEq, Repr

namespace Request

def program : String := "InCC24"

def interpretForm : Form :=
  { program := program ++ " interpret"
    options := [Form.helpOption, ⟨["--repl"], .nothing⟩, ⟨["--stop-on-error"], .nothing⟩]
    argument := "file", required := false }

def compileForm : Form :=
  { program := program ++ " compile"
    options := [Form.helpOption, ⟨["-o"], .any⟩, ⟨["--vm"], .oneOf ["cma", "mama"]⟩,
      ⟨["--emit", "-e"], .oneOf ["ir", "asm", "obj", "exe"]⟩, ⟨["--keep-asm"], .nothing⟩]
    argument := "file", required := true }

def stage? : String → Option Stage
  | "ir" => some .ir
  | "asm" => some .asm
  | "obj" => some .obj
  | "exe" => some .exe
  | _ => none

def error (text : String) : Refusal := .usage ⟨program, text⟩

/-- Nothing may be left over. -/
def checkRest (rest : List String) : Except Refusal Unit :=
  if rest.isEmpty then return () else throw (error ("unrecognized arguments: " ++ " ".intercalate rest))

def ofInterpret (before args : List String) : Except Refusal Request := do
  let r ← interpretForm.read args
  checkRest (before ++ r.rest)
  let request : InterpretRequest := ⟨r.argument, r.has "--repl", r.has "--stop-on-error"⟩
  if request.stopOnError && !request.repl then throw (error "--stop-on-error requires --repl")
  return .interpret request

def ofCompile (before args : List String) : Except Refusal Request := do
  let r ← compileForm.read args
  checkRest (before ++ r.rest)
  let request : CompileRequest :=
    { file := r.argument.getD "", outfile := (r.value? "-o").getD "-"
      vm := if r.value? "--vm" == some "cma" then .cma else .mama
      emit := (r.value? "--emit").bind stage?, keepAsm := r.has "--keep-asm" }
  if request.outfile == "-" && request.emit.isNone then
    throw (error "writing to stdout requires --emit")
  return .compile request

def actions : List String := ["interpret", "i", "compile", "c"]

/-- The request in the arguments; `before` are those that stand before the action. -/
def read (before : List String) : List String → Except Refusal Request
  | [] => throw (error "the following arguments are required: action")
  | "--" :: rest =>
    if rest.isEmpty then throw (error "the following arguments are required: action")
    else throw (.usage (choiceError program "action" "--" actions))
  | s :: rest => do
    let form : Form := ⟨program, [Form.helpOption], "action", true⟩
    match ← (form.sort [s]).mapError .usage with
    | [.option _ none] => throw .help
    | [.option o (some v)] =>
      throw (form.optionError o ("ignored explicit argument " ++ Text.quoted v))
    | [.unknown s] => read (before ++ [s]) rest
    | _ =>
      if s = "interpret" ∨ s = "i" then ofInterpret before rest
      else if s = "compile" ∨ s = "c" then ofCompile before rest
      else throw (.usage (choiceError program "action" s actions))

/-- How the program and its actions are used. -/
def usage (name : String) : String :=
  if name = interpretForm.program then
    "usage: " ++ name ++ " [-h] [--repl] [--stop-on-error] [file]"
  else if name = compileForm.program then
    let margin := "\n" ++ String.ofList (List.replicate ("usage: " ++ name ++ " ").length ' ')
    "usage: " ++ name ++ " [-h] [-o OUTFILE] [--vm \x7bcma,mama\x7d]" ++ margin ++
      "[--emit \x7bir,asm,obj,exe\x7d] [--keep-asm]" ++ margin ++ "file"
  else "usage: " ++ name ++ " [-h] \x7b" ++ ",".intercalate actions ++ "\x7d ..."

def errorText (e : UsageError) : String := usage e.program ++ "\n" ++ e.message ++ "\n"

def ofArguments (args : List String) : Except Refusal Request := read [] args

end Request

end ExprLang
