/-
  Data known by their written form: days, times of day, moments, spans of time, exact decimals,
  fractions, paths and identifiers.

  Each form is written as the call that makes the datum.
-/
import ExprLang.Fingerprint.Datum
import ExprLang.Text.Blank
import ExprLang.Text.Digit

namespace ExprLang.Written

def call (name : String) (args : List String) : String :=
  name ++ "(" ++ String.intercalate ", " args ++ ")"

/-! ## Days and times -/

def date (year month day : Nat) : Datum :=
  .written "date" (call "datetime.date" ([year, month, day].map toString))

/-- Seconds and microseconds, each left out if nothing follows that is not zero. -/
def seconds (second micro : Nat) : List Nat :=
  if micro ≠ 0 then [second, micro] else if second ≠ 0 then [second] else []

def time (hour minute second micro : Nat) : Datum :=
  .written "time"
    (call "datetime.time" (([hour, minute] ++ seconds second micro).map toString))

def moment (year month day hour minute second micro : Nat) : Datum :=
  .written "datetime"
    (call "datetime.datetime"
      (([year, month, day, hour, minute] ++ seconds second micro).map toString))

/-- A span of time of a number of microseconds: whole days, of either sign, and the rest of a day
    in seconds and microseconds.  Parts that are zero are left out. -/
def span (micros : Int) : Datum :=
  let day : Int := 86400 * 1000000
  let rest := micros.emod day
  let parts := [("days", micros.ediv day), ("seconds", rest.ediv 1000000),
    ("microseconds", rest.emod 1000000)]
  let shown := (parts.filter (·.2 ≠ 0)).map fun (name, n) => name ++ "=" ++ toString n
  .written "timedelta" (call "datetime.timedelta" (if shown.isEmpty then ["0"] else shown))

/-- The microseconds of a unit of each part of a span: days, seconds, microseconds, milliseconds,
    minutes, hours, weeks. -/
def units : List Int :=
  [86400000000, 1000000, 1, 1000, 60000000, 3600000000, 604800000000]

/-- A span of time with its parts in the order of `units`. -/
def spanOf (parts : List Int) : Datum :=
  span (((parts.zip units).map fun (n, u) => n * u).foldl (· + ·) 0)

/-! ## Exact numbers -/

/-- A fraction in lowest terms, with its sign above the line. -/
def fraction (n d : Int) : Datum :=
  let g := (Int.gcd n d : Int)
  let g := if d < 0 then -g else g
  .written "Fraction" (call "Fraction" [toString (n.tdiv g), toString (d.tdiv g)])

/-- An exact decimal without its sign: `digits` times ten to the power `exponent`. -/
def exactText (digits : List Char) (exponent : Int) : List Char :=
  let count := (digits.length : Int)
  let left := exponent + count
  let point := if exponent ≤ 0 ∧ left > -6 then left else 1
  let shown :=
    if point ≤ 0 then '0' :: '.' :: List.replicate (-point).toNat '0' ++ digits
    else if point ≥ count then digits ++ List.replicate (point - count).toNat '0'
    else digits.take point.toNat ++ '.' :: digits.drop point.toNat
  shown ++ if left = point then [] else 'E' :: Decimal.exponentText 0 (left - point)

/-- The exponent that ends a numeral: nothing, or `e` with a whole number. -/
def exponent? : List Char → Option Int
  | [] => some 0
  | [_] => none
  | e :: ds => do
    guard (e.toLower = 'e')
    let (negative, ds) := match ds with
      | '-' :: ds => (true, ds)
      | '+' :: ds => (false, ds)
      | ds => (false, ds)
    guard !ds.isEmpty
    let n ← Text.natOfDigits? ds
    return if negative then -(n : Int) else n

/-- A numeral of an exact decimal without its sign: its digits and its exponent. -/
def exactNumeral? (cs : List Char) : Option (List Char × Int) := do
  let whole := cs.takeWhile Text.isDigit
  let rest := cs.dropWhile Text.isDigit
  let (places, rest) := match rest with
    | '.' :: more => (more.takeWhile Text.isDigit, more.dropWhile Text.isDigit)
    | _ => ([], rest)
  guard !(whole ++ places).isEmpty
  let n ← Text.natOfDigits? (whole ++ places)
  let exponent ← exponent? rest
  return (Decimal.digitsOf n, exponent - places.length)

/-- An exact decimal that is read from a text. -/
def decimal? (s : String) : Option Datum := do
  let cs := Text.trim (s.toList.filter (· ≠ '_'))
  let (sign, cs) := match cs with
    | '-' :: rest => ("-", rest)
    | '+' :: rest => ("", rest)
    | _ => ("", cs)
  let body ← match String.ofList (cs.map Char.toLower) with
    | "nan" => some "NaN"
    | "snan" => some "sNaN"
    | "inf" | "infinity" => some "Infinity"
    | _ => (exactNumeral? cs).map fun (digits, e) => String.ofList (exactText digits e)
  return .written "Decimal" (call "Decimal" [Text.quoted (sign ++ body)])

/-! ## Paths and identifiers -/

/-- A path without empty and idle parts.  A path that starts at the root starts with one slash, or
    with two if exactly two were given. -/
def pathText (cs : List Char) : List Char :=
  let root := match cs with
    | '/' :: '/' :: '/' :: _ => ['/']
    | '/' :: '/' :: _ => ['/', '/']
    | '/' :: _ => ['/']
    | _ => []
  let parts := (Text.splitAt '/' cs).filter fun p => p ≠ [] ∧ p ≠ ['.']
  match root ++ ['/'].intercalate parts with
  | [] => ['.']
  | text => text

def path (s : String) : Datum :=
  .written "PurePosixPath"
    (call "PurePosixPath" [Text.quoted (String.ofList (pathText s.toList))])

def identifier (s : String) : Datum :=
  let ds := (s.toList.filter fun c => c.isAlphanum).map Char.toLower
  let groups := [ds.take 8, (ds.drop 8).take 4, (ds.drop 12).take 4, (ds.drop 16).take 4, ds.drop 20]
  .written "UUID" (call "UUID" [Text.quoted (String.ofList (['-'].intercalate groups))])

end ExprLang.Written
