/-
  What an evaluation can see and change.

  A `World` holds the scopes, the text that was written and the lines that can still be read, the
  debugger, the lexers that were made, and the files.  A `Run` changes a world and gives a value or
  a fault; a fault keeps the changes made before it.
-/
import ExprLang.Value.Part
import ExprLang.Token.Lexer

namespace ExprLang

structure Debugger where
  /-- It stops at every expression. -/
  stepping : Bool
  /-- It has stopped, and does not stop again meanwhile. -/
  stopped : Bool
  /-- The expressions that are shown at every stop, with their texts. -/
  watches : Bindings (Option Expr)

/-- A lexer that a program made. -/
structure Lexing where
  /-- Where it is in its text, once it was given one. -/
  place : Option Cursor
  line : Nat
  /-- The token it looked ahead to. -/
  held : Option Token

/-- What an evaluation can see and change. -/
structure World where
  /-- The scopes; the mark of a scope is the struct that it belongs to. -/
  scopes : Forest Value Nat
  /-- The text written up to each line that was read, the last one first. -/
  pages : List String
  /-- The text written since. -/
  page : String
  /-- The lines that can still be read. -/
  input : List String
  debugger : Debugger
  lexers : Array Lexing
  files : Files
  /-- The last mark that was given to a value. -/
  lastMark : Nat

/-- A computation with effects on the world. -/
abbrev Run := ExceptT Fault (StateM World)

namespace Run

abbrev world : Run World := get

/-- A result as a computation without effects. -/
def ofExcept {α : Type} : Except Fault α → Run α
  | .ok a => pure a
  | .error f => throw f

def write (s : String) : Run Unit := modify fun w => { w with page := w.page ++ s }

def writeLine (s : String) : Run Unit := write (s ++ "\n")

def readLine (prompt : String) : Run String := do
  modify fun w => { w with pages := (w.page ++ prompt) :: w.pages, page := "" }
  match (← get).input with
  | [] => throw .endOfInput
  | line :: rest =>
    modify fun w => { w with input := rest }
    return line

def stamp (v : Value) : Run Value := do
  match v with
  | .nan _ | .array .. | .scalar .. =>
    modify fun w => { w with lastMark := w.lastMark + 1 }
    return v.withMark (← get).lastMark
  | v => return v

/-- The value of an operation, with a mark of its own. -/
def fresh (v : Except Fault Value) : Run Value := do stamp (← ofExcept v)

def part (whole : Value) (v : Except Fault Value) : Run Value := do
  if whole.hasNewParts then fresh v else ofExcept v

def modifyScopes (change : Forest Value Nat → Forest Value Nat) : Run Unit :=
  modify fun w => { w with scopes := change w.scopes }

def addScope (add : Forest Value Nat → Nat × Forest Value Nat) : Run Nat :=
  modifyGet fun w => let (id, scopes) := add w.scopes; (id, { w with scopes := scopes })

def push (scope : Nat) (names : List String) : Run Nat :=
  addScope fun f => f.push scope names .null

def textOf (v : Value) : Run String := do
  let scopes := (← get).scopes
  if v.overlongAlone scopes then throw .overlongInteger else return v.alone scopes

def writeValues : List Value → Run Unit
  | [] => return
  | [v] => do write (← textOf v)
  | v :: vs => do
    write ((← textOf v) ++ " ")
    writeValues vs

end Run

end ExprLang
