/-
  Scopes.

  A scope binds names to values and has a parent, except for the roots.  Scopes live in a forest
  and are known by their numbers; a scope's number is greater than its parent's, so every chain of
  parents ends in a root.  Each scope also carries a mark that its children start with.

  * `Forest.home` is the scope that a name refers to: the innermost one that binds it, or else the
    root of the chain;
  * `get?` and `set` read and write there, so that writing an unknown name binds it in the root;
  * `has?` asks the scopes of the chain one after the other whether they bind the name.  Each scope
    asks its parent in a call of its own, so the room for nested calls has to suffice.
-/
import ExprLang.Text.Quoted

namespace ExprLang

/-- Bindings in the order in which the names were first bound. -/
abbrev Bindings (α : Type) := List (String × α)

namespace Bindings

variable {α : Type}

def has (bs : Bindings α) (name : String) : Bool := bs.any (·.1 == name)

/-- The value of `name`. -/
def get? (bs : Bindings α) (name : String) : Option α := bs.lookup name

/-- Binds `name` to `value`; a name that is already bound keeps its place. -/
def set (bs : Bindings α) (name : String) (value : α) : Bindings α :=
  if bs.has name then bs.map fun (n, v) => if n == name then (n, value) else (n, v)
  else bs ++ [(name, value)]

/-- The bindings in braces, with quoted names. -/
def describe (value : α → String) (bs : Bindings α) : String :=
  "\x7b" ++ ", ".intercalate (bs.map fun (n, v) => Text.quoted n ++ ": " ++ value v) ++ "\x7d"

end Bindings

structure Scope (α β : Type) where
  vars : Bindings α
  parent : Option Nat
  mark : Option β

/-- All scopes, by their numbers. -/
structure Forest (α β : Type) where
  scopes : Array (Scope α β)

namespace Forest

variable {α β : Type}

/-- No scopes. -/
def empty : Forest α β := ⟨#[]⟩

def add (f : Forest α β) (s : Scope α β) : Nat × Forest α β :=
  (f.scopes.size, ⟨f.scopes.push s⟩)

def addRoot (f : Forest α β) : Nat × Forest α β := f.add ⟨[], none, none⟩

def vars (f : Forest α β) (id : Nat) : Bindings α :=
  match f.scopes[id]? with
  | some s => s.vars
  | none => []

def parent? (f : Forest α β) (id : Nat) : Option Nat := f.scopes[id]?.bind (·.parent)

def mark? (f : Forest α β) (id : Nat) : Option β := f.scopes[id]?.bind (·.mark)

/-- Adds a child of `id` that binds each of `names` to `value`. -/
def push (f : Forest α β) (id : Nat) (names : List String) (value : α) : Nat × Forest α β :=
  f.add ⟨names.foldl (fun bs n => bs.set n value) [], some id, f.mark? id⟩

def modify (f : Forest α β) (id : Nat) (change : Scope α β → Scope α β) : Forest α β :=
  ⟨f.scopes.modify id change⟩

def setMark (f : Forest α β) (id : Nat) (mark : Option β) : Forest α β :=
  f.modify id fun s => { s with mark := mark }

def bind (f : Forest α β) (id : Nat) (name : String) (value : α) : Forest α β :=
  f.modify id fun s => { s with vars := s.vars.set name value }

def root (f : Forest α β) (id : Nat) : Nat :=
  match f.parent? id with
  | none => id
  | some p => if p < id then f.root p else id
termination_by id

/-- The scope that `name` refers to from `id`. -/
def home (f : Forest α β) (id : Nat) (name : String) : Nat :=
  if (f.vars id).has name then id
  else
    match f.parent? id with
    | none => id
    | some p => if p < id then f.home p name else id
termination_by id

/-- The value of `name` as seen from `id`. -/
def get? (f : Forest α β) (id : Nat) (name : String) : Option α :=
  (f.vars (f.home id name)).get? name

/-- Whether `name` is bound as seen from `id`, by the scope itself or by one that encloses it; `none`
    if it takes more than `room` nested calls to say. -/
def has? (f : Forest α β) : Nat → Nat → String → Option Bool
  | 0, _, _ => none
  | room + 1, id, name =>
    if (f.vars id).has name then some true
    else
      match f.parent? id with
      | none => some false
      | some p => f.has? room p name

/-- Binds `name` in the scope that it refers to. -/
def set (f : Forest α β) (id : Nat) (name : String) (value : α) : Forest α β :=
  f.bind (f.home id name) name value

/-- The bindings of a scope and its ancestors, its own first. -/
def visible (f : Forest α β) (id : Nat) : Bindings α :=
  match f.parent? id with
  | none => f.vars id
  | some p => if p < id then f.vars id ++ f.visible p else f.vars id
termination_by id

/-- The bindings of a scope and its ancestors in braces, the root's first. -/
def describe (value : α → String) (f : Forest α β) (id : Nat) : String :=
  let own := (f.vars id).describe value
  match f.parent? id with
  | none => own
  | some p => if p < id then f.describe value p ++ own else own
termination_by id

end Forest

end ExprLang
