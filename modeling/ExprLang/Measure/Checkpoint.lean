/-
  The record of the rounds.

  Each round adds a line to a file.  The earlier lines number the rounds, give the time since the
  last one, and tell when the shares no longer improve.
-/
import ExprLang.Json.Reader
import ExprLang.Json.Writer
import ExprLang.Measure.RepoTime
import ExprLang.Measure.SelfCheck

namespace ExprLang.Measure

def recordLines (record : String) : List String :=
  ((Text.lines record.toList).filter fun l => !(Text.trim l).isEmpty).map String.ofList

def roundNumber (lines : List String) : Nat := lines.length + 1

/-- The seconds since the last round on record. -/
def sinceLast (lines : List String) (now : JsonValue) : Except JsonFault JsonValue := do
  match lines.getLast? with
  | none => return .float 0
  | some line =>
    match ← (← JsonValue.read line).field? "ts" with
    | none => return .float 0
    | some then_ => if then_.isVoid then return .float 0 else return (← now.minus then_).rounded 2

/-- What a round puts on record. -/
structure Round where
  number : Nat
  now : JsonValue
  coverage : Coverage
  /-- The number of benches. -/
  benches : Nat
  /-- The seconds that the measurement took. -/
  took : JsonValue
  repoTime : RepoTime
  checks : List Checked

namespace Round

/-- The number of benches that have to be mended. -/
def faulty (r : Round) : Nat := r.checks.countP fun c => !c.verdict.isGood

def toJson (r : Round) (since : JsonValue) : JsonValue :=
  .object [
    ("round", .int r.number),
    ("ts", r.now),
    ("wall_since_prev_s", since),
    ("coverage_pct", .float r.coverage.percent),
    ("covered_lines", r.coverage.covered),
    ("num_statements", r.coverage.statements),
    ("n_bench_fns", .int r.benches),
    ("n_bench_errors", .int r.coverage.errors.length),
    ("cov_measure_s", r.took.rounded 3),
    ("repo_time_pct", .object (r.repoTime.shares.map fun (name, share) => (name, .float share))),
    ("n_below_repo_time", match r.repoTime.low? with
      | some n => .int n
      | none => .null),
    ("semcheck", .object (r.checks.map fun c => (c.name, .text c.verdict.word))),
    ("n_not_self_checking", .int r.faulty)]

def addTo (r : Round) (record : String) : Except JsonFault String := do
  let since ← sinceLast (recordLines record) r.now
  return record ++ (r.toJson since).write ++ "\n"

def summary (r : Round) : Except JsonFault String := do
  let low := if r.repoTime.shares.isEmpty then ""
    else ", " ++ toString r.repoTime.low ++ "/" ++ toString r.repoTime.measured ++
      " below repo_time 45%"
  let faulty := if r.checks.isEmpty then ""
    else ", " ++ toString r.faulty ++ "/" ++ toString r.checks.length ++ " not self-checking"
  return "[round " ++ toString r.number ++ ": " ++ toString r.benches ++ " benches, " ++
    Decimal.fixedText 1 r.coverage.percent ++ "% covered" ++ low ++ faulty ++ ", measured in " ++
    Decimal.fixedText 1 (← r.took.number) ++ "s]"

end Round

/-! ## Convergence -/

def coverageFloor : Float := 60.0

/-- The number of rounds without improvement after which the rounds end. -/
def patience : Nat := 3

/-- The number of low benches that a line of the record gives, if its round counts. -/
def lowOnRecord? (line : String) : Option Int := do
  let v ← (JsonValue.read line).toOption
  let coverage ← ((JsonValue.field? v "coverage_pct").toOption).join
  let percent ← coverage.number.toOption
  if percent < coverageFloor then none
  else match ← ((JsonValue.field? v "n_below_repo_time").toOption).join with
    | .int n => some n
    | .bool b => some (if b then 1 else 0)
    | _ => none

/-- The least of some numbers, and how many of them follow its first occurrence. -/
def leastAndAge : List Int → Option (Int × Nat)
  | [] => none
  | n :: ns => match leastAndAge ns with
    | some (m, age) => some (if m < n then (m, age) else (n, ns.length))
    | none => some (n, 0)

/-- Why no further round is needed. -/
inductive Convergence where
  /-- No bench is below the mark. -/
  | noneLow
  /-- The number of low benches has not gone below `best` for some rounds. -/
  | noProgress (rounds : Nat) (best : Int)

/-- Why no further round is needed, if so. -/
def convergence? (lines : List String) (r : Round) : Option Convergence :=
  if r.coverage.percent < coverageFloor then none
  else match r.repoTime.low? with
    | none => none
    | some 0 => some .noneLow
    | some n => match leastAndAge (lines.filterMap lowOnRecord? ++ [(n : Int)]) with
      | some (best, age) => if patience ≤ age then some (.noProgress age best) else none
      | none => none

def Convergence.line (c : Convergence) : String :=
  let reason := match c with
    | .noneLow => "0 below"
    | .noProgress rounds best => "no improvement in " ++ toString rounds ++ " rounds; best " ++
      toString best ++ " below"
  ">>> STOP: repo_time converged (" ++ reason ++ "). Finalize microbench.py now. <<<"

example : leastAndAge [1, 3, 3, 2] = some (1, 3) := by decide

example : leastAndAge [5, 2, 4, 2] = some (2, 2) := by decide

end ExprLang.Measure
