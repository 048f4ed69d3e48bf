/-
  Line coverage: how many statements of each file a round has run.

  `Coverage.ofJson` reads what the coverage tool has recorded, and `Coverage.table` lays it out, the
  file with the lowest percentage first and the longer of two equal ones before the shorter.
-/
import ExprLang.Json

namespace ExprLang.Measure

/-- The statements of a file that were run and missed. -/
structure FileCoverage where
  name : String
  statements : JsonValue
  missed : JsonValue
  percent : Float
  /-- The lines that were missed. -/
  lines : List JsonValue

/-- What the coverage tool has recorded. -/
structure Coverage where
  percent : Float
  covered : JsonValue
  statements : JsonValue
  /-- The benches that failed, with the reason. -/
  errors : List (String × JsonValue)
  files : List FileCoverage

/-! ## Names of files -/

/-- The directory that is measured. -/
def home : List (List Char) := ["repo".toList]

/-- One more step from the place `at_`, which is given from its end. -/
def takeStep (at_ : List (List Char)) (step : List Char) : List (List Char) :=
  if step = [] ∨ step = ['.'] then at_ else if step = ['.', '.'] then at_.drop 1 else step :: at_

/-- The steps of a path from the root of all files, where relative paths start at `home`. -/
def absoluteSteps (path : List Char) : List (List Char) :=
  let start := if path.head? = some '/' then [] else home.reverse
  ((Text.splitAt '/' path).foldl takeStep start).reverse

/-- The number of steps that two paths have in common at their start. -/
def common : List (List Char) → List (List Char) → Nat
  | a :: as, b :: bs => if a = b then common as bs + 1 else 0
  | _, _ => 0

/-- The name of a file as it is seen from `home`. -/
def nameFromHome (path : String) : String :=
  let steps := absoluteSteps path.toList
  let shared := common home steps
  match List.replicate (home.length - shared) ['.', '.'] ++ steps.drop shared with
  | [] => "."
  | steps => String.ofList (List.intercalate ['/'] steps)

/-! ## Reading -/

/-- A number field, zero if it is not there. -/
def count (v : JsonValue) (name : String) : Except JsonFault JsonValue := do
  return (← v.field? name).getD (.int 0)

def FileCoverage.ofJson (path : String) (v : JsonValue) : Except JsonFault FileCoverage := do
  let summary := JsonValue.orEmpty (← v.field? "summary")
  let lines ← match JsonValue.orEmpty (← v.field? "missing_lines") with
    | .list lines => pure lines
    | .object [] => pure []
    | _ => throw .wrongKind
  return {
    name := nameFromHome path
    statements := ← count summary "num_statements"
    missed := ← count summary "missing_lines"
    percent := ← (← count summary "percent_covered").number
    lines := lines }

def Coverage.ofJson (v : JsonValue) : Except JsonFault Coverage := do
  let totals := JsonValue.orEmpty (← v.field? "totals")
  let percent ← (JsonValue.field? totals "percent_covered")
  let notes := JsonValue.orEmpty (← v.field? "meta")
  let errors := JsonValue.orEmpty (← notes.field? "_pti_bench_errors")
  let files := JsonValue.orEmpty (← v.field? "files")
  return {
    percent := ← (percent.getD (.float 0)).toFloat
    covered := ← count totals "covered_lines"
    statements := ← count totals "num_statements"
    errors := ← errors.fields
    files := ← (← files.fields).mapM fun (path, entry) => FileCoverage.ofJson path entry }

/-! ## The table -/

/-- The greatest width of a name in the table. -/
def nameLimit : Nat := 60

/-- The number of missed lines that a row shows. -/
def lineLimit : Nat := 12

def rightText (width : Nat) (s : String) : String := String.ofList (Text.padLeft width s.toList)

def leftText (width : Nat) (s : String) : String := String.ofList (Text.padRight width s.toList)

def figures (statements missed : JsonValue) (percent : Float) : String :=
  "  " ++ rightText 5 statements.plain ++ "  " ++ rightText 4 missed.plain ++ "  " ++
    rightText 4 (Decimal.fixedText 0 percent) ++ "%"

def FileCoverage.missing (f : FileCoverage) : String :=
  ",".intercalate ((f.lines.take lineLimit).map JsonValue.plain) ++
    (if f.lines.length > lineLimit then "…" else "")

/-- Whether the row of `f` stands before that of `g`. -/
def FileCoverage.before (f g : FileCoverage) : Bool :=
  f.percent < g.percent ||
    (f.percent == g.percent &&
      match f.statements.number, g.statements.number with
      | .ok n, .ok m => m ≤ n
      | _, _ => true)

/-- The width of the names: that of the longest, within limits. -/
def Coverage.width (c : Coverage) : Nat :=
  min nameLimit (c.files.foldl (fun w f => max w f.name.length) 4)

def Coverage.table (c : Coverage) : Except JsonFault (List String) := do
  let w := c.width
  let rule := String.ofList (List.replicate (w + 42) '-')
  let rows := (c.files.mergeSort FileCoverage.before).map fun f =>
    leftText w (String.ofList (f.name.toList.take w)) ++ figures f.statements f.missed f.percent ++
      "  " ++ f.missing
  let missed ← c.statements.minus c.covered
  return [leftText w "Name" ++ "  Stmts  Miss  Cover  Missing", rule] ++ rows ++
    [rule, leftText w "TOTAL" ++ figures c.statements missed c.percent, ""]

/-- The number of failed benches that are shown. -/
def errorLimit : Nat := 8

def Coverage.errorLines (c : Coverage) : List String :=
  if c.errors.isEmpty then []
  else
    (toString c.errors.length ++ " bench error(s):") ::
      (c.errors.take errorLimit).map (fun (name, reason) => "  " ++ name ++ ": " ++ reason.plain) ++
      [""]

example : nameFromHome "/repo/x/y.py" = "x/y.py" := by decide +kernel

example : nameFromHome "/other/z.py" = "../other/z.py" := by decide +kernel

end ExprLang.Measure
