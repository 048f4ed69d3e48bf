/-
  Writing floating-point numbers.

  * `floatText` is the shortest text that reads back: positional if the first digit stands for
    10^-4 up to 10^15, and with an exponent otherwise;
  * `fixedText` has a given number of places after the point;
  * `roundSignificant` and `roundPlaces` give the number that a shorter decimal stands for.
-/
import ExprLang.Decimal.Shortest

namespace ExprLang.Decimal

def digitsOf (n : Nat) : List Char := Nat.toDigits 10 n

/-- A positional decimal: the digits before the point, and those after it. -/
def positional (x : Digits) : List Char × List Char :=
  let ds := digitsOf x.digits
  if x.exponent ≥ 0 then (ds ++ List.replicate x.exponent.toNat '0', [])
  else
    let places := (-x.exponent).toNat
    let ds := List.replicate (places + 1 - ds.length) '0' ++ ds
    (ds.take (ds.length - places), ds.drop (ds.length - places))

def exponentText (width : Nat) (e : Int) : List Char :=
  let ds := digitsOf e.natAbs
  (if e < 0 then '-' else '+') :: List.replicate (width - ds.length) '0' ++ ds

/-- The text of a decimal without its sign. -/
def Digits.text (x : Digits) : List Char :=
  let e := x.magnitude
  if -4 ≤ e ∧ e < 16 then
    match positional x with
    | (whole, []) => whole ++ ['.', '0']
    | (whole, fraction) => whole ++ '.' :: fraction
  else
    match digitsOf x.digits with
    | [d] => d :: 'e' :: exponentText 2 e
    | d :: ds => d :: '.' :: ds ++ 'e' :: exponentText 2 e
    | [] => []

def specialText (x : Float) : String :=
  if x.isNaN then "nan" else if x < 0 then "-inf" else "inf"

/-- The shortest text of a number that reads back. -/
def floatText (x : Float) : String :=
  match Binary.ofFloat? x with
  | none => specialText x
  | some y => (if y.negative then "-" else "") ++ String.ofList (shortest y).text

/-- A number rounded to `places` places after the point, a half going to the even digit. -/
def fixedText (places : Nat) (x : Float) : String :=
  match Binary.ofFloat? x with
  | none => specialText x
  | some y =>
    let (n, d) := y.ratio
    let m := roundHalfEven (n * Nat.pow 10 places) d
    let (whole, fraction) := positional ⟨m, -(places : Int)⟩
    (if y.negative then "-" else "") ++ String.ofList whole ++
      (if places = 0 then "" else "." ++ String.ofList fraction)

/-- A ratio rounded to `count` significant digits: the digits and the power of ten of the first. -/
def significant (count n d : Nat) : Nat × Int :=
  let e := log10Ratio n d
  let (a, b) := scaled n d ((count : Int) - 1 - e)
  let m := roundHalfEven a b
  if m = Nat.pow 10 count then (Nat.pow 10 (count - 1), e + 1) else (m, e)

/-- A finite number rounded to `count` significant digits. -/
def roundSignificant (count : Nat) (x : Float) : Float :=
  match Binary.ofFloat? x with
  | none => x
  | some y =>
    if y.mantissa = 0 then x
    else
      let (n, d) := y.ratio
      let (m, e) := significant count n d
      let z := floatOfDecimal m (e - count + 1)
      if y.negative then -z else z

/-- A number rounded to `places` places after the point. -/
def roundPlaces (places : Nat) (x : Float) : Float :=
  match Binary.ofFloat? x with
  | none => x
  | some y =>
    let (n, d) := y.ratio
    let z := floatOfRatio (roundHalfEven (n * Nat.pow 10 places) d) (Nat.pow 10 places)
    if y.negative then -z else z

end ExprLang.Decimal
