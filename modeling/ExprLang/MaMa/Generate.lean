/-
  MaMa code for expressions.

  An expression is compiled for its basic word (`.basic`) or for a reference to its value
  (`.reference`).  The level `kp` is the height of the stack since the start of the function that
  the code belongs to; it turns addresses of locals into offsets from the top.

  A function may list the variables that it captures in any order (`codeBy`); the code that is
  listed and assembled has them in ascending order.
-/
import ExprLang.MaMa.Instr
import ExprLang.MaMa.FreeVars
import ExprLang.CMa.Generate

namespace ExprLang.MaMa

/-- What the code leaves on the stack. -/
inductive Want where
  | basic | reference
deriving DecidableEq, Repr

def variable_ (scope : Slots) (kp : Int) (name : String) : Gen (List Instr) := do
  match ← slot? scope name with
  | some ⟨.local_, a, _⟩ => return [.pushloc (.int (kp - a))]
  | some ⟨.global, a, _⟩ => return [.pushglob (.int a)]
  | _ => throw (.unknownVariable name)

def variableCodes (scope : Slots) (kp : Int) : List String → Gen (List Instr)
  | [] => return []
  | x :: xs => return (← variable_ scope kp x) ++ (← variableCodes scope (kp + 1) xs)

/-- Slots for `names` in storage `s`, the addresses going up by `step` from `a` on. -/
def slotsFrom (s : Storage) (a step : Int) : List String → Slots → Slots
  | [], slots => slots
  | x :: xs, slots => slotsFrom s (a + step) step xs (slots.put x ⟨s, a, none⟩)

def functionSlots (captured params : List String) : Slots :=
  slotsFrom .local_ 0 (-1) params (slotsFrom .global 0 1 captured [])

/-- Turns a basic word into what is wanted. -/
def boxed : Want → List Instr
  | .basic => []
  | .reference => [.mkbasic]

def unboxed : Want → List Instr
  | .basic => [.getbasic]
  | .reference => []

mutual

def codeBy (order : CaptureOrder) (want : Want) (scope : Slots) (kp : Int) :
    Expr → Gen (List Instr)
  | .ifThen _ c a b => do
    let ifL ← freshLabel "if"
    let thenL ← freshLabel "then"
    let elseL ← freshLabel "else"
    let endL ← freshLabel "endif"
    let c ← codeBy order .basic scope kp c
    let a ← codeBy order want scope kp a
    let b ← codeOrZeroBy order want scope kp b
    return .label (.text ifL) :: c ++ .jumpz (.text elseL) :: .label (.text thenL) :: a ++
      .jump (.text endL) :: .label (.text elseL) :: b ++ [.label (.text endL)]
  | .letIn _ bindings body => do
    let n := bindings.length
    let names ← bindingNames bindings
    let inner := slotsFrom .local_ (kp + 1) 1 names [] ++ scope
    let init ← initialiseBy order inner (kp + n) bindings
    let body ← codeBy order want inner (kp + n) body
    return .alloc (.int n) :: init ++ body ++ [.slide (.int n)]
  | .number _ text => return .loadc (.text text) :: boxed want
  | .unary _ op a => do
    let a ← codeBy order .basic scope kp a
    let op ← CMa.unaryOp op
    return a ++ .unary op :: boxed want
  | .binary _ op a b => do
    let a ← codeBy order .basic scope kp a
    let b ← codeBy order .basic scope (kp + 1) b
    let op ← CMa.binaryOp op
    return a ++ b ++ .binary op :: boxed want
  | .index _ a b => do
    let _ ← codeBy order .basic scope kp a
    let _ ← codeBy order .basic scope (kp + 1) b
    throw (.noOperator "[]")
  | .var _ name => return (← variable_ scope kp name) ++ unboxed want
  | .call _ f args => do
    let ret ← freshLabel "ret"
    let as ← argumentsBy order scope (kp + 3) args
    let f ← codeBy order .reference scope (kp + 3 + args.length) f
    return .mark (.text ret) :: as ++ f ++ .apply :: .label (.text ret) :: unboxed want
  | .lambda p params body rest =>
    match want with
    | .basic => throw (.unsupported (.lambda p params body rest))
    | .reference => do
      let fn ← freshLabel "fun"
      let after ← freshLabel "after"
      let free := order fn (← freeVars (.lambda p params body rest))
      let push ← variableCodes scope kp free
      let body ← codeBy order .reference (functionSlots free params ++ scope) 0 body
      return push ++ [.mkvec (.int free.length), .mkfunval (.text fn), .jump (.text after),
        .label (.text fn)] ++ body ++ [.popenv, .label (.text after)]
  | e => throw (.unsupported e)

/-- The code for arguments, the last one first; `kp` is the level before them. -/
def argumentsBy (order : CaptureOrder) (scope : Slots) (kp : Int) : List Expr → Gen (List Instr)
  | [] => return []
  | a :: as => do
    let rest ← argumentsBy order scope kp as
    let a ← codeBy order .reference scope (kp + as.length) a
    return rest ++ a

/-- The code of a part that may be missing; a missing part pushes a zero word. -/
def codeOrZeroBy (order : CaptureOrder) (want : Want) (scope : Slots) (kp : Int) :
    Option Expr → Gen (List Instr)
  | none => return [.loadc (.int 0)]
  | some a => codeBy order want scope kp a

/-- The code that computes the bindings and puts them into their places. -/
def initialiseBy (order : CaptureOrder) (scope : Slots) (kp : Int) :
    List (Binding Expr) → Gen (List Instr)
  | [] => return []
  | ⟨_, _, a⟩ :: bs => do
    let a ← codeBy order .reference scope kp a
    let rest ← initialiseBy order scope kp bs
    return a ++ .patch (.int (bs.length + 1)) :: rest

end

/-- The code of a part that may be missing, with captured variables in ascending order. -/
def codeOrZero (want : Want) (scope : Slots) (kp : Int) (e : Option Expr) : Gen (List Instr) :=
  codeOrZeroBy ascending want scope kp e

/-- The code for a condition or a `local`, and for nothing else. -/
def compound (want : Want) (scope : Slots) (kp : Int) : Option Expr → Gen (List Instr)
  | some (.ifThen p c a b) => codeBy ascending want scope kp (.ifThen p c a b)
  | some (.letIn p bs a) => codeBy ascending want scope kp (.letIn p bs a)
  | some e => throw (.unsupported e)
  | none => throw .missing

end ExprLang.MaMa
