/-
  Floating-point numbers as exact ratios.

  * `Binary.ofFloat?` takes a finite number apart into a mantissa and a power of two, and
    `ratio` turns that into a quotient of natural numbers;
  * `floatOfRatio` is the floating-point number nearest to a quotient, a half going to the even
    neighbour;
  * `roundHalfEven` rounds a quotient to a natural number in the same way.
-/

namespace ExprLang.Decimal

/-- The natural number nearest to `n / d`; a half goes to the even neighbour. -/
def roundHalfEven (n d : Nat) : Nat :=
  let q := n / d
  let r := n % d
  if 2 * r < d then q else if d < 2 * r then q + 1 else if q % 2 = 0 then q else q + 1

/-- A sign and a number `mantissa * 2 ^ exponent`. -/
structure Binary where
  negative : Bool
  mantissa : Nat
  exponent : Int
deriving DecidableEq, Repr

/-- A finite floating-point number, taken apart.  A normal number has a mantissa of 53 bits. -/
def Binary.ofFloat? (x : Float) : Option Binary :=
  let bits := x.toBits.toNat
  let negative := bits ≥ Nat.pow 2 63
  let field : Nat := bits / Nat.pow 2 52 % Nat.pow 2 11
  let fraction : Nat := bits % Nat.pow 2 52
  if field = 2047 then none
  else if field = 0 then some ⟨negative, fraction, -1074⟩
  else some ⟨negative, Nat.pow 2 52 + fraction, (field : Int) - 1075⟩

/-- `n * 2 ^ e` as a quotient. -/
def shifted (n : Nat) (e : Int) : Nat × Nat :=
  if e ≥ 0 then (n * Nat.pow 2 e.toNat, 1) else (n, Nat.pow 2 (-e).toNat)

def scaled (n d : Nat) (e : Int) : Nat × Nat :=
  if e ≥ 0 then (n * Nat.pow 10 e.toNat, d) else (n, d * Nat.pow 10 (-e).toNat)

/-- The size of a number as a quotient. -/
def Binary.ratio (x : Binary) : Nat × Nat := shifted x.mantissa x.exponent

/-- The greatest `e` with `2 ^ e ≤ n / d`, for positive `n` and `d`. -/
def log2Ratio (n d : Nat) : Int :=
  let guess : Int := (n.log2 : Int) - d.log2
  let (a, b) := shifted d guess
  if a ≤ n * b then guess else guess - 1

/-- The floating-point number nearest to `n / d`, where `d` is positive. -/
def floatOfRatio (n d : Nat) : Float :=
  if n = 0 then 0.0
  else
    let e := max (log2Ratio n d - 52) (-1074)
    let (a, b) := shifted n (-e)
    let m := roundHalfEven a (b * d)
    let (m, e) := if m = Nat.pow 2 53 then (Nat.pow 2 52, e + 1) else (m, e)
    if e > 971 then 1.0 / 0.0
    else if m < Nat.pow 2 52 then Float.ofBits m.toUInt64
    else Float.ofBits ((e + 1075).toNat * Nat.pow 2 52 + (m - Nat.pow 2 52)).toUInt64

/-- The floating-point number nearest to an integer. -/
def floatOfInt (i : Int) : Float :=
  let x := floatOfRatio i.natAbs 1
  if i < 0 then -x else x

/-- The floating-point number nearest to `n * 10 ^ e`. -/
def floatOfDecimal (n : Nat) (e : Int) : Float :=
  let (a, b) := scaled n 1 e
  floatOfRatio a b

/-- A finite number without its fraction. -/
def truncate? (x : Float) : Option Int :=
  (Binary.ofFloat? x).map fun y =>
    let (n, d) := y.ratio
    if y.negative then -((n / d : Nat) : Int) else ((n / d : Nat) : Int)

def compareInt (i : Int) (y : Binary) : Ordering :=
  let (n, d) := y.ratio
  let n : Int := if y.negative then -(n : Int) else n
  compare (i * d) n

end ExprLang.Decimal
