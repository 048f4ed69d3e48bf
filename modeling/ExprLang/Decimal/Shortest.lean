/-
  The shortest decimal that reads back.

  All reals close enough to a floating-point number are read back as it; they form an interval
  (`Interval.ofBinary`).  Of the decimals in the interval with the fewest digits, the shortest form
  is the one nearest to the number.
-/
import ExprLang.Decimal.Ratio

namespace ExprLang.Decimal

/-- The number `digits * 10 ^ exponent`. -/
structure Digits where
  digits : Nat
  exponent : Int
deriving DecidableEq, Repr

/-- How many decimal digits a number has; zero has one. -/
def digitCount (n : Nat) : Nat := (Nat.toDigits 10 n).length

def Digits.magnitude (x : Digits) : Int := x.exponent + digitCount x.digits - 1

/-- A number between two bounds, all over the same denominator; `closed` if the bounds belong to
    the interval. -/
structure Interval where
  low : Nat
  value : Nat
  high : Nat
  denominator : Nat
  closed : Bool

/-- The reals that are read back as a given number.  Below a power of two the neighbours are twice
    as close as above it. -/
def Interval.ofBinary (x : Binary) : Interval :=
  let below := if x.mantissa = Nat.pow 2 52 ∧ x.exponent > -1074 then 1 else 2
  let m := 4 * x.mantissa
  let (_, d) := shifted 1 (x.exponent - 2)
  let f := (shifted 1 (x.exponent - 2)).1
  ⟨(m - below) * f, m * f, (m + 2) * f, d, x.mantissa % 2 = 0⟩

def Interval.holds (i : Interval) (n d : Nat) : Bool :=
  let a := n * i.denominator
  if i.closed then i.low * d ≤ a && a ≤ i.high * d else i.low * d < a && a < i.high * d

/-- The greatest `k` with `10 ^ k ≤ n / d`, for positive `n` and `d`. -/
def log10Ratio (n d : Nat) : Int :=
  let guess : Int := (log2Ratio n d * 30103).fdiv 100000
  let atLeast (k : Int) : Bool :=
    let (a, b) := scaled 1 1 k
    a * d ≤ n * b
  if atLeast (guess + 1) then guess + 1 else if atLeast guess then guess else guess - 1

/-- The decimal on the grid `10 ^ e` nearest to the value and in the interval, if there is one. -/
def Interval.onGrid? (i : Interval) (e : Int) : Option Digits :=
  let (unit, denominator) := scaled 1 1 e
  let num := i.value * denominator
  let den := i.denominator * unit
  let d := num / den
  let fits (d : Nat) : Bool := i.holds (d * unit) denominator
  let nearest := roundHalfEven num den
  if fits nearest then some ⟨nearest, e⟩
  else if fits d then some ⟨d, e⟩
  else if fits (d + 1) then some ⟨d + 1, e⟩
  else none

/-- The first grid from `10 ^ e` downwards that has a decimal in the interval. -/
def Interval.search (i : Interval) (e : Int) : Nat → Digits
  | 0 => ⟨roundHalfEven i.value i.denominator, 0⟩
  | n + 1 => (i.onGrid? e).getD (i.search (e - 1) n)

/-- The decimal without trailing zeros. -/
def Digits.trim (x : Digits) : Nat → Digits
  | 0 => x
  | n + 1 => if x.digits ≠ 0 ∧ x.digits % 10 = 0 then trim ⟨x.digits / 10, x.exponent + 1⟩ n else x

/-- The shortest decimal that reads back as the size of a number. -/
def shortest (x : Binary) : Digits :=
  if x.mantissa = 0 then ⟨0, 0⟩
  else
    let (n, d) := x.ratio
    ((Interval.ofBinary x).search (log10Ratio n d + 1) 20).trim 20

end ExprLang.Decimal
