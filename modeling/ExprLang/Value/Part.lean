/-
  Parts of values.

  * `Value.index` is `a[i]`: a dictionary is asked for a key, everything else for a position;
  * `Value.member?` is `a.x`: a struct is asked for a member, and a dictionary for a key;
  * `Forest.lookup` is what a name means in a scope.
-/
import ExprLang.Value.Arith

namespace ExprLang

variable {β : Type}

/-- The value of a name as seen from a scope.  The scopes are asked whether they bind it first, which
    takes some of the room for nested calls. -/
def Forest.lookup (scopes : Forest Value β) (room id : Nat) (name : String) :
    Except Fault (Option Value) :=
  match scopes.has? room id name with
  | none => throw .tooDeep
  | some false => return none
  | some true =>
    match scopes.get? id name with
    | some v => return some v
    | none => throw (.missingKey name (Text.quoted name))

namespace Value

/-- The item of a list at a position; a negative one counts from the end. -/
def itemAt? {α : Type} (items : List α) (index : Int) : Option α :=
  let i := if index < 0 then index + items.length else index
  if i < 0 then Option.none else items[i.toNat]?

/-- The fault of a missing key, whose text alone is `plain`. -/
def missing (key : Value) (plain : String) : Fault :=
  if key.overlong then .missingLongKey else .missingKey plain key.inner

def entry (scopes : Forest Value β) (entries : List (Value × Value)) (key : Value) :
    Except Fault Value :=
  match key.unhashable? with
  | some t => throw (.unhashable t)
  | .none =>
    match lookup? entries key with
    | some v => return v
    | .none => throw (missing key (key.alone scopes))

/-- The part of a value at a position; a dictionary and a struct take it as a key. -/
def position (scopes : Forest Value β) (v : Value) (i : Int) : Except Fault Value :=
  match v with
  | .text s | .scalar _ (.text s) =>
    match itemAt? s.toList i with
    | some c => return .text (String.singleton c)
    | .none => throw (.outOfRange "string")
  | .tuple items =>
    match itemAt? items i with
    | some v => return v
    | .none => throw (.outOfRange "tuple")
  | .array _ kind shape items =>
    match Grid.at? ⟨kind, shape, items⟩ i with
    | some v => return v
    | .none => throw (.outOfBounds i (shape.headD 0))
  | .dict entries => entry scopes entries (.int i)
  | .struct _ => throw (missing (.int i) (toString i))
  | .scalar .. => throw .scalarIndex
  | v => throw (.notIndexable v.typeName)

/-- `a[i]` -/
def index (scopes : Forest Value β) (v i : Value) : Except Fault Value :=
  match v with
  | .dict entries => entry scopes entries i
  | v => do v.position scopes (← i.toInt)

def anyEquals (s : String) : List Value → Except Fault Bool
  | [] => return false
  | v :: vs => do if ← equals v (.text s) then return true else anyEquals s vs

/-- One text stands somewhere in another. -/
def isWithin (s : List Char) : List Char → Bool
  | [] => s.isEmpty
  | c :: cs => s.isPrefixOf (c :: cs) || isWithin s cs

/-- `a.x`; `none` if there is no such member. -/
def member? (room : Nat) (scopes : Forest Value β) (v : Value) (name : String) :
    Except Fault (Option Value) :=
  match v with
  | .struct id => scopes.lookup room id name
  | .dict entries => return lookup? entries (.text name)
  | .text s | .scalar _ (.text s) =>
    if isWithin name.toList s.toList then throw .memberOfText else return Option.none
  | .tuple items => do
    if ← anyEquals name items then throw .memberOfTuple else return Option.none
  | .array .. => do
    let hit := match ← compare .eq v (.text name) with
      | .array _ _ _ items => items.any fun v => match v with
        | .bool b => b
        | _ => false
      | _ => false
    if hit then throw .memberOfArray else return Option.none
  | v => throw (.notSearchable v.typeName)

end Value

end ExprLang
