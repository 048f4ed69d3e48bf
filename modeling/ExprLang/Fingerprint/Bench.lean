/-
  Benchmarks that are run for the fingerprints of their results.

  A benchmark is called twice with no parameters, which shows if its result is stable, and then
  once for each of its own sets of parameters.  The first call that fails ends its run, and what
  was found before stays.

  * `Bench.findings` is what the run of one benchmark finds;
  * `inspect` runs all those of a module.
-/
import ExprLang.Fingerprint
import ExprLang.Fingerprint.Recipe
import ExprLang.Fingerprint.Shown

namespace ExprLang

structure Bench where
  name : String
  /-- The results of its calls, in turn. -/
  results : List Recipe
  /-- Its sets of parameters. -/
  paramSets : List Params
  /-- Does it return its result rather than a function that does? -/
  direct : Bool
  /-- The kind of the failure that preparing it ends in. -/
  setupFailure : Option String
  /-- The kind of the failure that each call ends in. -/
  failure : Option String

/-- Why a call fails. -/
inductive BenchFault
  | failed (kind : String)
  | recipe (f : RecipeFault)

def BenchFault.kind : BenchFault → String
  | .failed kind => kind
  | .recipe .changeable | .recipe .noMultiple => "TypeError"

/-- What is found about a benchmark. -/
structure Findings where
  /-- The kind of its results, or of the failure that ended its run. -/
  kind : String := ""
  /-- The fingerprints of the first two results. -/
  stable : List String := []
  /-- The labels of the calls, each once. -/
  labels : List String := []
  /-- The fingerprint of the result for each label. -/
  byLabel : List (String × String) := []
  /-- The fingerprints of the parameters, in the order of the calls. -/
  paramPrints : List String := []

namespace Findings

/-- The label of a call without parameters. -/
def defaultLabel : String := "<default>"

def sorted (params : Params) : Params := params.mergeSort fun a b => decide (a.1 ≤ b.1)

def label (params : Params) : String :=
  if params.isEmpty then "-"
  else String.intercalate "," ((sorted params).map fun (name, d) => name ++ "=" ++ d.shown)

/-- The fingerprints by label with one more, which takes the place of an earlier one. -/
def setPrint (name print : String) : List (String × String) → List (String × String)
  | [] => [(name, print)]
  | (n, p) :: rest => if n = name then (n, print) :: rest else (n, p) :: setPrint name print rest

/-- The fingerprint of a datum, which fails if there is a number that cannot be written. -/
def print (d : Datum) : Except BenchFault String :=
  match d.fingerprint with
  | some print => .ok print
  | none => .error (.failed "ValueError")

def add (f : Findings) (params : Params) (result : Datum) : Except BenchFault Findings := do
  let name := label params
  let resultPrint ← print result
  let paramPrints ← (sorted params).mapM fun p => print p.2
  return { f with
    labels := if name ∈ f.labels then f.labels else f.labels ++ [name]
    byLabel := setPrint name resultPrint f.byLabel
    paramPrints := f.paramPrints ++ paramPrints }

def fail (f : Findings) (e : BenchFault) : Findings := { f with kind := "<" ++ e.kind ++ ">" }

end Findings

namespace Bench

/-- The result of the call number `n`. -/
def call (b : Bench) (n : Nat) (params : Params) : Except BenchFault Datum := do
  if let some kind := b.setupFailure then throw (.failed kind)
  if let some kind := b.failure then throw (.failed kind)
  let recipe := b.results.getD (n % b.results.length) (.datum .null)
  match recipe.make params with
  | .error f => throw (.recipe f)
  | .ok .intKind => return if b.direct then .int 0 else .intKind
  | .ok d => return d

/-- The findings with those of more calls, the first of which has the number `n`. -/
def findingsFrom (b : Bench) (f : Findings) (n : Nat) : List Params → Findings
  | [] => f
  | params :: rest =>
    let after : Except BenchFault Findings := do f.add params (← b.call n params)
    match after with
    | .error e => f.fail e
    | .ok g => findingsFrom b g (n + 1) rest

def findings (b : Bench) : Findings :=
  let first : Except BenchFault Findings := do
    let d ← b.call 0 []
    let e ← b.call 1 []
    return {
      kind := d.kindName
      stable := [← Findings.print d, ← Findings.print e]
      labels := [Findings.defaultLabel] }
  match first with
  | .error e => ({} : Findings).fail e
  | .ok f => b.findingsFrom f 2 b.paramSets

def namePart : String := "bench_"

end Bench

/-- What the inspection of a module gives: findings by name, or the reason why there is no
    module. -/
inductive Inspection
  | noModule (reason : String)
  | found (findings : List (String × Findings))

def inspect : Option (List Bench) → Inspection
  | none =>
    .noModule "ModuleNotFoundError: import of microbench halted; None in sys.modules"
  | some benches =>
    .found ((benches.filter (·.name.startsWith Bench.namePart)).map fun b => (b.name, b.findings))

end ExprLang
