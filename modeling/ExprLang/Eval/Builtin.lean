/-
  The built-in functions.

  Lists are nested pairs, and their functions take them apart by position, so they also take texts
  and arrays as far as these have the positions asked for.  Calls can be nested only so deep: every
  function is given the room that is left when it is called, and a list function calls itself once
  for each element.
-/
import ExprLang.Eval.World

namespace ExprLang

/-- How many calls can be nested when a program starts. -/
def depthLimit : Nat := 1000

namespace Builtin

/-- The parameters of a built-in function; `none` if it takes any number of arguments. -/
def params? : Builtin → Option (List String)
  | list | array | print => none
  | cons | concat => some ["a", "b"]
  | head | tail => some ["l"]
  | reverse => some ["a"]
  | map => some ["f", "l"]
  | newLexer _ | lexerNext _ | lexerHasNext _ => some []
  | lexerInput _ => some ["s"]

/-- The fault of a call with the wrong number of arguments. -/
def arityFault? (f : Builtin) (given : Nat) : Option Fault :=
  f.params?.bind fun names =>
    if given > names.length then some (.extraArguments f.fullName names.length given)
    else if given < names.length then some (.missingArguments f.fullName (names.drop given))
    else none

end Builtin

/-! ## Lists -/

namespace ListOps

def ofValues (vs : List Value) : Value := vs.foldr .cons .nil

/-- The first part of a pair. -/
def head (l : Value) : Run Value := do Run.part l (l.position (← get).scopes 0)

/-- The second part of a pair. -/
def tail (l : Value) : Run Value := do Run.part l (l.position (← get).scopes 1)

def nonempty (l : Value) : Run Bool :=
  Run.ofExcept do (← Value.compare .ne l .nil).truth

/-- The elements of one list before another. -/
def concat : Nat → Value → Value → Run Value
  | 0, _, _ => throw .tooDeep
  | n + 1, a, b => do
    if ← nonempty a then
      let first ← head a
      let rest ← concat n (← tail a) b
      return .cons first rest
    else return b

/-- The elements of a list in reverse order, before another list. -/
def reverse : Nat → Value → Value → Run Value
  | 0, _, _ => throw .tooDeep
  | n + 1, a, done => do
    if ← nonempty a then
      let rest ← tail a
      reverse n rest (.cons (← head a) done)
    else return done

/-- The values of a function at the elements of a list; `f n` calls it where `n` calls can still be
    nested. -/
def map {m : Type → Type} [Monad m] [MonadLiftT Run m] (f : Nat → Value → m Value) :
    Nat → Value → m Value
  | 0, _ => (throw .tooDeep : Run Value)
  | n + 1, l => do
    if ← nonempty l then
      let first ← f n (← head l)
      let rest ← map f n (← tail l)
      return .cons first rest
    else return .nil

end ListOps

/-! ## Lexers -/

namespace Lexing

/-- A lexer without a text. -/
def start : Lexing := ⟨none, 1, none⟩

/-- The next token, and the lexer after it.  An illegal character is met again and again. -/
def advance (l : Lexing) : Except Fault (Option Token) × Lexing :=
  match l.place with
  | none => (.error .noLexerInput, l)
  | some here =>
    match here.next with
    | .token t after => (.ok (some t), { l with place := some after })
    | .finished after => (.ok none, { l with place := some after })
    | .illegal c after => (.error (.read (.syntax_ (.illegal c))), { l with place := some after })

/-- The lexer with a text; it goes on counting lines where it was. -/
def withText (l : Lexing) (text : String) : Lexing :=
  let line := match l.place with
    | some here => here.line
    | none => l.line
  { l with place := some { Cursor.start text with line := line }, line := line }

end Lexing

namespace Run

def withLexer {α : Type} (id : Nat) (f : Lexing → Except Fault α × Lexing) : Run α := do
  match (← get).lexers[id]? with
  | none => throw .noLexerInput
  | some l =>
    let (r, l) := f l
    modify fun w => { w with lexers := w.lexers.set! id l }
    ofExcept r

def newStruct (members : Bindings Value) : Run Value := do
  let id ← addScope fun f => f.add ⟨members, none, none⟩
  return .struct id

def newLexer : Run Value := do
  let id := (← get).lexers.size
  modify fun w => { w with lexers := w.lexers.push .start }
  newStruct [("input", .builtin (.lexerInput id)), ("next", .builtin (.lexerNext id)),
    ("has_next", .builtin (.lexerHasNext id))]

def lexerInput (id : Nat) (v : Value) : Run Value := do
  match v with
  | .text s | .scalar _ (.text s) =>
    withLexer id fun l => (.ok (), l.withText s)
    return .null
  | .tuple _ | .array .. => throw .notText
  | .scalar .. => throw .scalarIndex
  | .dict _ | .struct _ => throw (.unhashable "slice")
  | v => throw (.notIndexable v.typeName)

/-- Whether a lexer has a token; it keeps the first one that it looks ahead to. -/
def lexerHasNext (id : Nat) : Run Value := do
  let held ← withLexer id fun l =>
    match l.held with
    | some t => (.ok (some t), l)
    | none =>
      match l.advance with
      | (.ok t, l) => (.ok t, { l with held := t })
      | r => r
  return .bool held.isSome

/-- The token that a lexer keeps, or else its next one, as a struct; at the end, the empty list. -/
def lexerNext (id : Nat) : Run Value := do
  let t? ← withLexer id fun l =>
    match l.held with
    | some t => (.ok (some t), l)
    | none => l.advance
  match t? with
  | none => return .nil
  | some t =>
    newStruct [("type", .text t.kind.name), ("value", .text t.text), ("lineno", .int t.line),
      ("lexpos", .int t.offset)]

end Run

/-! ## All built-ins -/

/-- What a built-in function other than `map`, which calls functions itself, does with as many
    arguments as it takes.  The reversal of a list is a call within the call. -/
def Builtin.body [ArrayLibrary] (room : Nat) (f : Builtin) (args : List Value) : Run Value := do
  match f, args with
  | list, vs => if vs.length < room then return ListOps.ofValues vs else throw .tooDeep
  | cons, [a, b] => return .cons a b
  | head, [l] => ListOps.head l
  | tail, [l] => ListOps.tail l
  | concat, [a, b] => ListOps.concat room a b
  | reverse, [l] => ListOps.reverse (room - 1) l .nil
  | array, vs => Run.fresh (return (← ArrayLibrary.array vs).toValue)
  | print, vs =>
    Run.writeValues vs
    Run.write "\n"
    return .null
  | newLexer _, _ => Run.newLexer
  | lexerInput id, [s] => Run.lexerInput id s
  | lexerNext id, _ => Run.lexerNext id
  | lexerHasNext id, _ => Run.lexerHasNext id
  | _, _ => return .null

/-- Calls a built-in function other than `map` where `room` calls can be nested. -/
def Builtin.run [ArrayLibrary] (room : Nat) (f : Builtin) (args : List Value) : Run Value :=
  match f.arityFault? args.length with
  | some fault => throw fault
  | none => if room = 0 then throw .tooDeep else f.body room args

/-- The names that every program can use, with the functions for a scope. -/
def builtins (scope : Nat) : Bindings Value :=
  [("list", .builtin .list), ("cons", .builtin .cons), ("nil", .nil), ("head", .builtin .head),
   ("tail", .builtin .tail), ("concat", .builtin .concat), ("reverse", .builtin .reverse),
   ("map", .builtin .map), ("array", .builtin .array), ("print", .builtin .print),
   ("make_incc24_lexer", .builtin (.newLexer scope))]

def defineBuiltins (scope : Nat) : Run Unit :=
  Run.modifyScopes fun f => (builtins scope).foldl (fun f (name, v) => f.bind scope name v) f

end ExprLang
