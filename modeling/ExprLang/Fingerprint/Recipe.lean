/-
  Descriptions of the data that a benchmark returns.

  A recipe may name a parameter of the call, so it gives its datum only when the call is made.
-/
import ExprLang.Fingerprint.Datum

namespace ExprLang

abbrev Params := List (String × Datum)

/-- A description of a datum. -/
inductive Recipe where
  | datum (d : Datum)
  | list (items : List Recipe)
  | tuple (items : List Recipe)
  | set (items : List Recipe)
  | frozenset (items : List Recipe)
  | dict (entries : List (Recipe × Recipe))
  | pair (left right : Recipe)
  /-- The list of the numbers below `n`. -/
  | upto (n : Nat)
  /-- A datum taken `n` times. -/
  | times (r : Recipe) (n : Nat)
  /-- The value of a parameter, or nothing if it is not given. -/
  | param (name : String)
deriving Nonempty

/-- Why there is no datum: a member of a set or a key that may change, or a datum without
    multiples. -/
inductive RecipeFault
  | changeable
  | noMultiple
deriving DecidableEq, Repr

namespace Recipe

def setOf (ds : List Datum) : Except RecipeFault (List Datum) :=
  if Datum.allFixed ds then .ok (ds.foldl Datum.addMember []) else .error .changeable

mutual

def make (params : Params) : Recipe → Except RecipeFault Datum
  | .datum d => .ok d
  | .list items => do return .list (← makeAll params items)
  | .tuple items => do return .tuple (← makeAll params items)
  | .set items => do return .set (← setOf (← makeAll params items))
  | .frozenset items => do return .frozenset (← setOf (← makeAll params items))
  | .dict entries => do return .dict (← makeEntries params [] entries)
  | .pair a b => do return .pair (← make params a) (← make params b)
  | .upto n => .ok (.list ((List.range n).map fun i => .int (Int.ofNat i)))
  | .times r n => do
    match (← make params r).times? n with
    | some d => return d
    | none => throw .noMultiple
  | .param name => .ok ((params.lookup name).getD .null)

def makeAll (params : Params) : List Recipe → Except RecipeFault (List Datum)
  | [] => .ok []
  | r :: rs => do return (← make params r) :: (← makeAll params rs)

def makeEntries (params : Params) (entries : List (Datum × Datum)) :
    List (Recipe × Recipe) → Except RecipeFault (List (Datum × Datum))
  | [] => .ok entries
  | (k, v) :: rest => do
    let k ← make params k
    let v ← make params v
    if !k.fixed then throw .changeable
    makeEntries params (Datum.addEntry k v entries) rest

end

end Recipe

end ExprLang
