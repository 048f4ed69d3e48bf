/-
  The commands of the program.

  `command` carries out the arguments of the program on files, lines of input and programs that can
  be started, and gives all that can be seen of it: what it wrote, how it ended, and what became of
  the files.
-/
import ExprLang.Command.Build
import ExprLang.Session

namespace ExprLang

/-- Why a command failed. -/
inductive CommandFault where
  | eval (fault : Fault)
  | build (fault : BuildFault)

def CommandFault.message : CommandFault → String
  | eval f => f.message
  | build f => f.message

/-- How a command ended. -/
inductive Ending where
  | done
  | refused (r : Refusal)
  | failed (fault : CommandFault)

/-- What can be seen of a command. -/
structure Outcome where
  ending : Ending
  /-- What was written, up to each line that was read. -/
  pages : List String
  /-- The programs that were started, with their arguments. -/
  started : List (List String)
  files : Files

/-! ## Interpreting -/

namespace Session

/-- Reads a line, evaluates it and shows its value. -/
def turn : Run Unit := do
  let v ← evalText (← Run.readLine "> ")
  Run.writeLine (← Run.textOf v)

/-- Takes a turn, and says whether the session goes on.  A fault is shown, or ends the session if
    `stopOnError` is set; reading past the last line ends it in any case. -/
def round (stopOnError : Bool) : Run Bool := do
  match ← ExceptT.lift turn.run with
  | .ok () => return true
  | .error f =>
    if f = .endOfInput then return false
    else if stopOnError then throw f
    else
      Run.writeLine (← Run.ofExcept f.shown)
      return true

/-- Reads and evaluates lines until there are no more. -/
def repl (stopOnError : Bool) : Nat → Run Unit
  | 0 => return
  | n + 1 => do
    if ← round stopOnError then repl stopOnError n

def interpretFile (path : String) : Run Unit := do
  let e ← Run.ofExcept ((parseFile (depthLimit - 1) (← get).files path).mapError .read)
  let v ← evalProgram (some e) scope
  Run.writeLine (← Run.textOf v)

def interpretNamed (r : InterpretRequest) : Run Unit :=
  match r.file with
  | some path => if path.isEmpty then pure () else interpretFile path
  | none => pure ()

def interpret (r : InterpretRequest) : Run Unit := do
  interpretNamed r
  if r.repl then repl r.stopOnError ((← get).input.length + 1)

end Session

/-! ## Commands -/

def Files.listed (files : Files) : Files := files.map fun f => ((Place.ofPath f.1).name, f.2)

/-- Carries out the arguments of the program. -/
def command (args : List String) (files : Files) (input : List String) (tools : Tools) : Outcome :=
  match Request.ofArguments args with
  | .error r => ⟨.refused r, [""], [], files⟩
  | .ok (.interpret r) =>
    let (result, w) := (Session.interpret r).run.run (Session.start files input)
    let ending := match result with
      | .ok () => .done
      | .error f => .failed (.eval f)
    ⟨ending, (Session.takePages w).1, [], files⟩
  | .ok (.compile r) =>
    let (result, d) := (Build.carryOut r).run.run ⟨files, tools, [], ""⟩
    let ending := match result with
      | .ok () => .done
      | .error f => .failed (.build f)
    ⟨ending, [d.page], d.started.map fun s => s.name :: s.args, d.files.listed⟩

/-! ## Files that a command may read -/

def importedPaths (text : String) : List String :=
  let tokens := (lex text).tokens
  (tokens.zip tokens.tail).filterMap fun (a, b) =>
    if a.kind = .word .import_ ∧ b.kind = .string then some b.text else none

/-- The path of the file that the arguments of the program name. -/
def namedFile? (args : List String) : Option String :=
  match Request.ofArguments args with
  | .ok (.interpret r) => r.file
  | .ok (.compile r) => some r.file
  | .error _ => none

end ExprLang
