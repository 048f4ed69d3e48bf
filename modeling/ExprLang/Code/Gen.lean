/-
  Generating code.

  A generator makes labels and addresses as it goes.  Both counters keep what they have reached
  when a generator fails, so that the next program goes on from there.
-/
import ExprLang.Expr.Describe
import ExprLang.Code.Label
import ExprLang.Fault

namespace ExprLang

/-- Where a variable lives. -/
inductive Storage where
  | global | argument | local_
deriving DecidableEq, Repr

/-- What a generator knows about a variable. -/
structure Slot where
  storage : Storage
  address : Int
  size : Option Nat
deriving DecidableEq, Repr

/-- The variables of a scope, in the order in which they were added. -/
abbrev Slots := List (String × Slot)

/-- The slots with `name` set to `slot`; a name that is already there keeps its place. -/
def Slots.put (slots : Slots) (name : String) (slot : Slot) : Slots :=
  if slots.any (·.1 == name) then slots.map fun (n, s) => if n == name then (n, slot) else (n, s)
  else slots ++ [(name, slot)]

/-- Why code cannot be generated. -/
inductive GenFault where
  | unknownVariable (name : String)
  /-- The machine has no such operator. -/
  | noOperator (text : String)
  /-- The machine has no code for this expression. -/
  | unsupported (e : Expr)
  /-- There is no code for something that is missing. -/
  | missing
  /-- There is no code for a bare target. -/
  | bareTarget (name : String)
  /-- A sequence without parts has no last one. -/
  | noParts
  /-- The target of a binding is bare, so that no name can be read off it. -/
  | nameless

/-- What a generator failure says. -/
def GenFault.message : GenFault → String
  | unknownVariable name => s!"unknown variable {name}"
  | noOperator text => text
  | unsupported e => e.describe
  | missing => "None"
  | bareTarget name => name
  | noParts => "list index out of range"
  | nameless => "'str' object has no attribute 'name'"

def GenFault.sort : GenFault → FaultSort
  | unknownVariable _ | noOperator _ => .key
  | unsupported _ | missing | bareTarget _ => .unsupported
  | noParts => .index
  | nameless => .attribute

/-- What generators change. -/
structure GenState where
  labels : Labels
  /-- The next free global address. -/
  next : Int
  /-- The global variables. -/
  globals : Slots

/-- A generator. -/
abbrev Gen := ExceptT GenFault (StateM GenState)

/-- The slot of a variable: the innermost one that the scope holds, or a global one. -/
def slot? (scope : Slots) (name : String) : Gen (Option Slot) :=
  return (scope.lookup name).or ((← get).globals.lookup name)

/-- The next label from `name`. -/
def freshLabel (name : String) : Gen String :=
  modifyGet fun s =>
    let (label, labels) := s.labels.fresh name
    (label, { s with labels := labels })

end ExprLang
