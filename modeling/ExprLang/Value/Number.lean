/-
  Plain numbers.

  Booleans count as the integers 0 and 1.  Integers have no bounds; an operation on an integer and
  a float converts the integer, but comparisons are exact.
-/
import ExprLang.Fault
import ExprLang.Text.Digit
import ExprLang.Text.Blank

namespace ExprLang

/-- The operators of arithmetic. -/
inductive ArithOp where
  | add | sub | mul | div
deriving DecidableEq, Repr

inductive CompareOp where
  | lt | gt | le | ge | eq | ne
deriving DecidableEq, Repr

/-- How an operator is written. -/
def ArithOp.symbol : ArithOp → String
  | add => "+" | sub => "-" | mul => "*" | div => "/"

def CompareOp.symbol : CompareOp → String
  | lt => "<" | gt => ">" | le => "<=" | ge => ">=" | eq => "==" | ne => "!="

def CompareOp.isEquality : CompareOp → Bool
  | eq | ne => true
  | _ => false

/-- Whether an order of two things satisfies the comparison; things without an order are unequal. -/
def CompareOp.test (op : CompareOp) (o : Option Ordering) : Bool :=
  match op, o with
  | ne, none => true
  | _, none => false
  | lt, some o => o == .lt
  | gt, some o => o == .gt
  | le, some o => o != .gt
  | ge, some o => o != .lt
  | eq, some o => o == .eq
  | ne, some o => o != .eq

/-- A plain number. -/
inductive Number where
  | int (i : Int)
  | float (x : Float)

def Value.number? : Value → Option Number
  | .bool b => some (.int (if b then 1 else 0))
  | .int i => some (.int i)
  | .word w => some (.int w.toNat)
  | .float x => some (.float x)
  | .nan _ => some (.float (0.0 / 0.0))
  | _ => none

namespace Number

def orderFloats (x y : Float) : Option Ordering :=
  if x < y then some .lt else if x == y then some .eq else if y < x then some .gt else none

def orderIntFloat (i : Int) (y : Float) : Option Ordering :=
  match Decimal.Binary.ofFloat? y with
  | some d => some (Decimal.compareInt i d)
  | none => if y.isNaN then none else some (if y < 0 then .gt else .lt)

def order : Number → Number → Option Ordering
  | int i, int j => some (compare i j)
  | float x, float y => orderFloats x y
  | int i, float y => orderIntFloat i y
  | float x, int j => (orderIntFloat j x).map Ordering.swap

def toFloat : Number → Except Fault Float
  | int i =>
    let x := Decimal.floatOfInt i
    if x.isInf then throw .integerTooLarge else return x
  | float x => return x

/-- The quotient of two integers, rounded once. -/
def intQuotient (i j : Int) : Except Fault Value :=
  if j = 0 then throw (.divisionByZero false)
  else
    let x := Decimal.floatOfRatio i.natAbs j.natAbs
    if x.isInf then throw .quotientTooLarge
    else if (i < 0) != (j < 0) && i != 0 then return .float (-x)
    else return .float x

/-- Arithmetic on floats; nothing is divided by zero. -/
def floatArith (op : ArithOp) (x y : Float) : Except Fault Value :=
  match op with
  | .add => return .ofFloat (x + y)
  | .sub => return .ofFloat (x - y)
  | .mul => return .ofFloat (x * y)
  | .div => if y == 0 then throw (.divisionByZero true) else return .ofFloat (x / y)

def arith (op : ArithOp) : Number → Number → Except Fault Value
  | int i, int j =>
    match op with
    | .add => return .int (i + j)
    | .sub => return .int (i - j)
    | .mul => return .int (i * j)
    | .div => intQuotient i j
  | a, b => do floatArith op (← a.toFloat) (← b.toFloat)

end Number

/-! ## Reading numbers -/

/-- The value of a number as it is written in a program: digits with a point somewhere. -/
def floatOfNumeral (text : String) : Float :=
  let cs := text.toList
  let whole := cs.takeWhile Text.isDigit
  let fraction := (cs.drop (whole.length + 1)).takeWhile Text.isDigit
  let n := (whole ++ fraction).foldl (fun n c => 10 * n + (Text.digit? c).getD 0) 0
  Decimal.floatOfDecimal n (-(fraction.length : Int))

/-- The value of digits that may have single underscores between them. -/
def digitsWithUnderscores? (cs : List Char) : Option Nat :=
  (Text.splitAt '_' cs).foldl (fun n? part =>
    n?.bind fun n =>
      if part.isEmpty || !part.all Text.isDigit then none
      else some (part.foldl (fun n c => 10 * n + (Text.digit? c).getD 0) n)) (some 0)

/-- The integer that a text holds, with blanks around it and a sign allowed. -/
def intOfText? (text : String) : Option Int :=
  match Text.trim text.toList with
  | '-' :: cs => (digitsWithUnderscores? cs).map fun n => -(n : Int)
  | '+' :: cs => (digitsWithUnderscores? cs).map fun n => (n : Int)
  | cs => (digitsWithUnderscores? cs).map fun n => (n : Int)

end ExprLang
