/-
  The share of a bench's time that is spent in the code under measurement.

  A bench should spend half of its time there; it is below the mark with less than 45 per cent.  A
  negative share says that the bench could not be run.
-/
import ExprLang.Measure.Coverage

namespace ExprLang.Measure

/-- The shares of the benches. -/
structure RepoTime where
  /-- The share of each bench, in per cent. -/
  shares : List (String × Float) := []
  /-- Where else the time of a bench goes: pairs of a share and a name. -/
  elsewhere : JsonValue := .object []

namespace RepoTime

/-- The share under which a bench is marked. -/
def mark : Float := 45.0

/-- Whether a share is that of a bench that could be run. -/
def ran (share : Float) : Bool := !(share < 0)

def isLow (share : Float) : Bool := ran share && share < mark

/-- What the tool has printed. -/
def ofJson (v : JsonValue) : Except JsonFault RepoTime := do
  let shares ← (JsonValue.orEmpty (← v.field? "repo_time_pct")).fields
  let elsewhere := JsonValue.orEmpty (← v.field? "hot_ext")
  return {
    shares := ← shares.mapM fun (name, share) => return (name, ← share.toFloat)
    elsewhere := elsewhere }

/-- The number of benches that could be run. -/
def measured (r : RepoTime) : Nat := r.shares.countP fun (_, share) => ran share

/-- The number of benches with too low a share. -/
def low (r : RepoTime) : Nat := r.shares.countP fun (_, share) => isLow share

/-- The number of benches with too low a share, if any bench could be run. -/
def low? (r : RepoTime) : Option Nat := if r.measured = 0 then none else some r.low

def placeText : JsonValue → Except JsonFault String
  | .list [share, name] => return name.plain ++ " " ++ Decimal.fixedText 0 (← share.number) ++ "%"
  | .list _ => throw .noNumeral
  | .text _ => throw .noNumeral
  | .object _ => throw .noNumeral
  | _ => throw .wrongKind

def places (r : RepoTime) (name : String) : Except JsonFault String := do
  match JsonValue.orEmpty (← r.elsewhere.field? name) with
  | .list items => return " (hot: " ++ " ".intercalate (← items.mapM placeText) ++ ")"
  | .object [] => return ""
  | _ => throw .wrongKind

def line (r : RepoTime) (name : String) (share : Float) : Except JsonFault String := do
  let shown := if ran share then share else 0.0
  let text := leftText 32 name ++ " " ++ rightText 5 (Decimal.fixedText 1 shown) ++ "%"
  if !ran share then return "    " ++ text ++ "  <error>"
  else if isLow share then return "  * " ++ text ++ (← r.places name)
  else return "    " ++ text

/-- The benches with the lowest share first. -/
def sorted (r : RepoTime) : List (String × Float) :=
  r.shares.mergeSort fun (_, x) (_, y) => !(y < x)

/-- The line above the shares. -/
def title : String := "repo_time (target 50%; * = below 45%):"

end RepoTime

end ExprLang.Measure
