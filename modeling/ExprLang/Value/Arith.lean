/-
  Arithmetic on values.

  Plain numbers calculate exactly or as floats, texts and tuples can be joined and repeated.  Arrays
  calculate item by item after they are brought to a common shape; their integers have 64 bits and
  wrap around, and division by zero gives an infinity or no number.  A scalar calculates like an
  array without dimensions, and a plain integer beside an array is taken as one of its items.
-/
import ExprLang.Value.Compare

namespace ExprLang

def ArithOp.operation : ArithOp → String
  | add => "add"
  | sub => "subtract"
  | mul => "multiply"
  | div => "divide"

namespace Value

/-- An integer reduced to 64 bits. -/
def wrap (i : Int) : Int := i.bmod (Nat.pow 2 64)

def arithItems (op : ArithOp) : Value → Value → Value
  | .int i, .int j =>
    match op with
    | .add => .int (wrap (i + j))
    | .sub => .int (wrap (i - j))
    | .mul => .int (wrap (i * j))
    | .div => .null
  | .word a, .word b =>
    match op with
    | .add => .word (a + b)
    | .sub => .word (a - b)
    | .mul => .word (a * b)
    | .div => .null
  | .bool a, .bool b =>
    match op with
    | .add => .bool (a || b)
    | _ => .bool (a && b)
  | .text s, .text t => .text (s ++ t)
  | a, b =>
    let x := match a with | .float x => x | _ => 0.0 / 0.0
    let y := match b with | .float y => y | _ => 0.0 / 0.0
    match op with
    | .add => .ofFloat (x + y)
    | .sub => .ofFloat (x - y)
    | .mul => .ofFloat (x * y)
    | .div => .ofFloat (x / y)

/-- Arithmetic on two arrays; `objects` does it for items of any sort. -/
def arithGrids (objects : Value → Value → Except Fault Value) (op : ArithOp) (a b : Grid) :
    Except Fault Value :=
  match a.kind, b.kind with
  | .object, _ | _, .object => return (← a.zipWith .object objects b).toValue
  | .text v, .text w =>
    if op = .add then
      return (← a.zipWith (.text (v + w)) (fun x y => return arithItems op x y) b).toValue
    else throw (.items op.operation [a.kind.name, b.kind.name])
  | .text _, _ | _, .text _ => throw (.items op.operation [a.kind.name, b.kind.name])
  | j, k =>
    let common := if op = .div then .float else j.join k
    if common = .bool ∧ op = .sub then throw .booleanDifference
    else
      return (← (a.cast common).zipWith common (fun x y => return arithItems op x y)
        (b.cast common)).toValue

/-- A plain integer beside an array of a kind: it has to fit into the items if they are integers. -/
def besideItems (kind : ItemKind) (i : Int) : Except Fault Grid :=
  match kind with
  | .bool | .int =>
    if ItemKind.ofInt i = .int then return ⟨.int, [], [.int i]⟩
    else throw (.tooLargeForItems i "int64")
  | .word =>
    if 0 ≤ i ∧ i < (Nat.pow 2 64 : Int) then return ⟨.word, [], [.word (UInt64.ofInt i)]⟩
    else throw (.tooLargeForItems i "uint64")
  | .float => do return ⟨.float, [], [.float (← (Number.int i).toFloat)]⟩
  | .text _ | .object => Grid.ofValue (.int i)

/-- Two values as arrays that calculate with each other. -/
def operands (a b : Value) : Except Fault (Grid × Grid) :=
  match a, b with
  | .int i, b => do
    let right ← Grid.ofValue b
    return (← besideItems right.kind i, right)
  | a, .int j => do
    let left ← Grid.ofValue a
    return (left, ← besideItems left.kind j)
  | a, b => return (← Grid.ofValue a, ← Grid.ofValue b)

/-- Repeats a text or a tuple; a negative count gives nothing. -/
def repeated (count : Int) : Value → Value
  | .text s => .text (String.join (List.replicate count.toNat s))
  | .tuple items => .tuple (List.replicate count.toNat items).flatten
  | v => v

/-- Texts and tuples can be repeated. -/
def isSequence : Value → Bool
  | .text _ | .tuple _ => true
  | _ => false

/-- How often a value says that something is to be repeated, if it is a whole number. -/
def count? : Value → Option Int
  | .bool b => some (if b then 1 else 0)
  | .int i | .scalar _ (.int i) => some i
  | .scalar _ (.word w) => some w.toNat
  | _ => Option.none

def arithPlain (op : ArithOp) (a b : Value) : Except Fault Value :=
  match a.number?, b.number? with
  | some m, some n => m.arith op n
  | _, _ =>
    match op, a, b with
    | .add, .text s, .text t => return .text (s ++ t)
    | .add, .text _, b => throw (.joining "str" b.typeName)
    | .add, .tuple as, .tuple bs => return .tuple (as ++ bs)
    | .add, .tuple _, b => throw (.joining "tuple" b.typeName)
    | .mul, a, b =>
      if a.isSequence then
        match b.count? with
        | some n => return a.repeated n
        | .none => throw (.repeating b.typeName)
      else if b.isSequence then
        match a.count? with
        | some n => return b.repeated n
        | .none => throw (.repeating a.typeName)
      else throw (.operands op.symbol a.typeName b.typeName)
    | op, a, b => throw (.operands op.symbol a.typeName b.typeName)

def isScalar : Value → Bool
  | .scalar .. => true
  | _ => false

def arithScalars (op : ArithOp) (a b : Value) : Except Fault Value :=
  let asGrids (_ : Unit) : Except Fault Value := do
    let (left, right) ← operands a b
    arithGrids (arithPlain op) op left right
  if !a.isScalar && !b.isScalar then arithPlain op a b
  else
    match op with
    | .add =>
      match a.text?, b.text? with
      | some s, some t => return .text (s ++ t)
      | some _, .none => throw (.joining "str" b.typeName)
      | _, _ => asGrids ()
    | .mul =>
      if a.isSequence then
        match b.count? with
        | some n => return a.repeated n
        | .none => throw (.repeating b.typeName)
      else if b.isSequence then
        match a.count? with
        | some n => return b.repeated n
        | .none => throw (.repeating (if a.text?.isSome then b.typeName else a.typeName))
      else asGrids ()
    | _ => asGrids ()

def arith (op : ArithOp) (a b : Value) : Except Fault Value :=
  if a.isArray || b.isArray then do
    let (left, right) ← operands a b
    arithGrids (arithScalars op) op left right
  else arithScalars op a b

/-! ## Signs -/

/-- A value with a sign before it; an array's items change their sign each. -/
def signed (minus : Bool) : Value → Except Fault Value
  | .bool b => let i := if b then 1 else 0; return .int (if minus then -i else i)
  | .int i => return .int (if minus then -i else i)
  | .float x => return .float (if minus then -x else x)
  | .nan m => return if minus then .nan 0 else .nan m
  | v => throw (.operand (if minus then "-" else "+") v.typeName)

def signedItem (minus : Bool) : Value → Except Fault Value
  | .scalar m item => return .scalar m (← item.signed minus)
  | v => v.signed minus

/-- An integer of an array with a sign before it, in 64 bits. -/
def signedWhole (minus : Bool) : Value → Value
  | .int i => .int (if minus then wrap (-i) else i)
  | .word w => .word (if minus then -w else w)
  | v => v

def withSign (minus : Bool) (v : Value) : Except Fault Value :=
  match v with
  | .array .. | .scalar .. => do
    let g ← Grid.ofValue v
    let operation := if minus then "negative" else "positive"
    match g.kind with
    | .bool => throw (if minus then .booleanNegation else .items operation [g.kind.name])
    | .text _ => throw (.items operation [g.kind.name])
    | .int | .word =>
      return (⟨g.kind, g.shape, g.items.map (signedWhole minus)⟩ : Grid).toValue
    | kind => return (⟨kind, g.shape, ← g.items.mapM (signedItem minus)⟩ : Grid).toValue
  | v => v.signed minus

end Value

end ExprLang
