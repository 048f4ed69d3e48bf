/-
  Free variables.

  A lambda binds its parameters, and a `local` binds its names in its body.  Only the expressions
  that the MaMa has code for, and assignments, have free variables; the first other expression
  that is met is reported.
-/
import ExprLang.Code.Gen

namespace ExprLang.MaMa

/-- The names that a target mentions: a bare one is refused. -/
def targetVars : Target → Except GenFault (List String)
  | .var _ name => return [name]
  | .bare name => throw (.bareTarget name)

def bindingNames : List (Binding Expr) → Except GenFault (List String)
  | [] => return []
  | ⟨_, .var _ name, _⟩ :: bs => return name :: (← bindingNames bs)
  | ⟨_, .bare _, _⟩ :: _ => throw .nameless

mutual

def freeVars : Expr → Except GenFault (List String)
  | .number _ _ => return []
  | .unary _ _ a => freeVars a
  | .binary _ _ a b => return (← freeVars a) ++ (← freeVars b)
  | .index _ a b => return (← freeVars a) ++ (← freeVars b)
  | .assign _ t a => return (← targetVars t) ++ (← freeVars a)
  | .var _ name => return [name]
  | .ifThen _ c a b => return (← freeVars c) ++ (← freeVars a) ++ (← freeVarsOption b)
  | .letIn _ bs a => do
    let free ← freeVars a
    let names ← bindingNames bs
    return free.filter (· ∉ names)
  | .lambda _ params a _ => return (← freeVars a).filter (· ∉ params)
  | .call _ f as => return (← freeVars f) ++ (← freeVarsList as)
  | e => throw (.unsupported e)

def freeVarsList : List Expr → Except GenFault (List String)
  | [] => return []
  | a :: as => return (← freeVars a) ++ (← freeVarsList as)

/-- The free variables of a part that may be missing: a missing one is refused. -/
def freeVarsOption : Option Expr → Except GenFault (List String)
  | none => throw .missing
  | some a => freeVars a

end

def insertName (name : String) : List String → List String
  | [] => [name]
  | n :: ns => if name < n then name :: n :: ns else if name = n then n :: ns
      else n :: insertName name ns

/-- The names in ascending order of their code points, each once. -/
def sortNames (names : List String) : List String := names.foldr insertName []

/-- How the variables that a function captures are listed: from the label of the function and its
    free variables, which may be given more than once. -/
abbrev CaptureOrder := String → List String → List String

/-- Every function lists its captured variables in ascending order. -/
def ascending : CaptureOrder := fun _ names => sortNames names

end ExprLang.MaMa
