/-
  Whether the results of a bench can tell a right run from a wrong one.

  A bench is run twice with its own parameters and once with each other set of them, and the
  results are compared by their fingerprints.  `Verdict` says what is wrong with a bench, the first
  fault in the order of the constructors of `judge` counting.
-/
import ExprLang.Measure.Coverage

namespace ExprLang.Measure

/-- What the self-check says of a bench. -/
inductive Verdict where
  | ok
  /-- Nothing is wrong, but the bench was run with one set of parameters only. -/
  | okUnparam
  | error
  | returnsNone
  | unstable
  | returnsInput
  | lowRepoTime
  | tooFast
  | paramInvariant
  | repoModified
deriving Repr, DecidableEq, BEq

namespace Verdict

def word : Verdict → String
  | ok => "ok"
  | okUnparam => "ok-unparam"
  | error => "error"
  | returnsNone => "returns-none"
  | unstable => "unstable"
  | returnsInput => "returns-input"
  | lowRepoTime => "low-repo-time"
  | tooFast => "too-fast"
  | paramInvariant => "param-invariant"
  | repoModified => "repo-modified"

/-- Whether the bench can stay as it is. -/
def isGood : Verdict → Bool
  | ok | okUnparam => true
  | _ => false

end Verdict

/-- What was seen of a bench. -/
structure Trial where
  /-- The type of the result; a type in angle brackets stands for a failure. -/
  resultType : Option String
  /-- The fingerprints of the results with the bench's own parameters. -/
  stable : List JsonValue
  /-- The fingerprints of the results with each set of parameters. -/
  byParam : List JsonValue
  /-- The fingerprints of the parameters. -/
  params : List JsonValue
  /-- The times of the runs, in milliseconds. -/
  times : List Float
  /-- The shares of the time that were spent in the code under measurement. -/
  shares : List Float

namespace Trial

def valuesOf (v : JsonValue) (name : String) : Except JsonFault (List JsonValue) := do
  return (← (JsonValue.orEmpty (← v.field? name)).fields).map Prod.snd

def itemsOf (v : JsonValue) (name : String) : Except JsonFault (List JsonValue) := do
  match JsonValue.orEmpty (← v.field? name) with
  | .list items => return items
  | .object [] => return []
  | _ => throw .wrongKind

/-- What was seen of a bench. -/
def ofJson (v : JsonValue) : Except JsonFault Trial := do
  let resultType ← match ← v.field? "ret_type" with
    | some (.text s) => pure (if s.isEmpty then none else some s)
    | some t => if t.isVoid then pure none else throw .noFields
    | none => pure none
  return {
    resultType := resultType
    times := ← (← valuesOf v "repo_tt_ms").mapM JsonValue.toFloat
    shares := ← (← valuesOf v "repo_frac").mapM JsonValue.toFloat
    stable := ← itemsOf v "fp_stable"
    byParam := ← valuesOf v "fp_by_param"
    params := ← itemsOf v "param_fps" }

/-- Whether two fingerprints are the same. -/
def sameMark : JsonValue → JsonValue → Bool
  | .text s, .text t => s == t
  | .int i, .int j => i == j
  | .null, .null => true
  | .bool a, .bool b => a == b
  | _, _ => false

/-- Whether all fingerprints are the same. -/
def allSame : List JsonValue → Bool
  | [] => true
  | v :: vs => vs.all (sameMark v)

def share? (t : Trial) : Option Float :=
  t.shares.foldl (fun least x => some (match least with
    | none => x
    | some y => if x < y then x else y)) none

/-- The middle time; of an even number, the mean of the two in the middle. -/
def time? (t : Trial) : Option Float :=
  let sorted := t.times.mergeSort fun x y => !(y < x)
  let half := sorted.length / 2
  if sorted.length % 2 = 1 then sorted[half]?
  else match sorted[half - 1]?, sorted[half]? with
    | some x, some y => some ((x + y) / 2)
    | _, _ => none

/-- What is wrong with a bench. -/
def judge (t : Trial) : Verdict :=
  match t.resultType with
  | none => .error
  | some type =>
    if type.startsWith "<" then .error
    else if type = "NoneType" then .returnsNone
    else if t.stable.isEmpty || !allSame t.stable then .unstable
    else if (t.stable.take 1).any fun v => t.params.any (sameMark v) then .returnsInput
    else if t.share?.any (· < 0.5) then .lowRepoTime
    else if t.time?.any (· < 1.0) then .tooFast
    else if t.byParam.length < 2 then .okUnparam
    else if allSame t.byParam then .paramInvariant
    else .ok

/-- What is shown of a bench besides its verdict. -/
def detail (t : Trial) : String :=
  let share := Decimal.roundPlaces 2 (t.share?.getD 0.0)
  "(" ++ t.resultType.getD "?" ++ ", repo " ++ Decimal.fixedText 0 (share * 100) ++ "%) " ++
    Decimal.fixedText 1 (t.time?.getD 0.0) ++ "ms"

end Trial

/-- A bench with its verdict. -/
structure Checked where
  name : String
  verdict : Verdict
  trial : Trial

def Checked.line (c : Checked) : String :=
  (if c.verdict.isGood then "    " else "  * ") ++ leftText 32 c.name ++ " " ++
    leftText 16 c.verdict.word ++ " " ++ c.trial.detail

/-- The lines above the verdicts: what to do about each of them. -/
def adviceLines : List String :=
  ["self-check (* = fix needed):",
   "  returns-none: run() has no return — collect and return the call results",
   "  unstable: seed RNG in setup; avoid time/uuid/id in the return",
   "  returns-input: return repo output, not the parameter value",
   "  low-repo-time: <50% of run() time is in repo code — move glue to setup",
   "  param-invariant: return something derived from run()'s work, not setup",
   "  repo-modified: revert edits to repo files (git checkout -- <path>)"]

def checkLines (checks : List Checked) : List String :=
  if checks.isEmpty then []
  else
    let (good, bad) := checks.partition fun c => c.verdict.isGood
    adviceLines ++ (bad ++ good).map Checked.line ++ [""]

/-- Judges the benches in their order until one cannot be read; entries that are no objects are
    passed over.  With modified files no bench is judged on its own. -/
def judgeAll (modified : Bool) : List (String × JsonValue) → List Checked × Option JsonFault
  | [] => ([], none)
  | (name, .object fields) :: rest =>
    match Trial.ofJson (.object fields) with
    | .error fault => ([], some fault)
    | .ok trial =>
      let verdict := if modified then .repoModified else trial.judge
      let (checks, fault) := judgeAll modified rest
      (⟨name, verdict, trial⟩ :: checks, fault)
  | _ :: rest => judgeAll modified rest

/-! ## Modified files -/

/-- The start of the names of the files that a round writes itself. -/
def ownNames : List String := ["microbench.py", "_pti_", ".pti_"]

/-- The files that a status listing names as changed, apart from those that may be. -/
def modifiedFiles (listing : String) : List String :=
  let names := ((Text.lines listing.toList).filter fun l => !(Text.trim l).isEmpty).map fun l =>
    String.ofList (l.drop 3)
  names.filter fun name => !ownNames.any fun own => name.startsWith own

def modifiedLines (names : List String) : List String :=
  if names.isEmpty then []
  else
    ("** repo modified (" ++ toString names.length ++
      " file(s)) — revert these; only microbench.py is yours to edit:") ::
      names.map (fun name => "   " ++ name) ++ [""]

end ExprLang.Measure
