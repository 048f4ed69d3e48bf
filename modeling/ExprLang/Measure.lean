/-
  A round of measurement.

  A round starts the tools that measure the benches, reads what they leave behind, puts a line on
  record and reports.  `measure` is that report as a function of all that the round can see.
-/
import ExprLang.Measure.Checkpoint
import ExprLang.Source

namespace ExprLang.Measure

/-- How a tool ended. -/
inductive ToolRun where
  | ended (code : Int) (out err : Option String)
  | timedOut
  | notStarted

/-- What a round can see. -/
structure Setting where
  files : Files
  tools : List (String × ToolRun)
  /-- The clock before and after the coverage tool. -/
  start : JsonValue
  stop : JsonValue
  /-- The time of the round. -/
  now : JsonValue

/-- Why a round breaks off. -/
inductive RoundFault where
  | read (fault : ReadFault)
  | data (fault : JsonFault)
  | timedOut
  | notStarted

/-- Why a tool's answer cannot be used. -/
inductive ToolFault where
  | data (fault : JsonFault)
  | timedOut
  | notStarted

def ToolFault.word : ToolFault → String
  | .data fault => fault.word
  | .timedOut => "TimeoutExpired"
  | .notStarted => "OSError"

/-- What a round leaves behind. -/
structure Report where
  /-- The lines of the report. -/
  lines : List String := []
  /-- The text of the error stream. -/
  notes : String := ""
  /-- The record with the line of the round, if one was added. -/
  record : Option String := none
  /-- The exit code, or why the round broke off. -/
  ending : Except RoundFault Int := .ok 0

def Report.text (r : Report) : String := "".intercalate (r.lines.map (· ++ "\n"))

def recordName : String := ".pti_checkpoint.jsonl"

/-- How a tool ended; one that is not there cannot be started. -/
def Setting.run (s : Setting) (name : String) : ToolRun := (s.tools.lookup name).getD .notStarted

/-- Whether a file is there. -/
def Setting.has (s : Setting) (name : String) : Bool :=
  match s.files.entry name with
  | .file _ => true
  | _ => false

def Setting.textOf (s : Setting) (name : String) : String :=
  match s.files.read name with
  | .ok text => text
  | .error _ => ""

def benchCount (program : String) : Nat :=
  (Text.splitAt '\n' program.toList).countP ("def bench_".toList.isPrefixOf ·)

/-- The value on the last line of what a tool has printed, if it has printed anything. -/
def lastValue? (out : String) : Except JsonFault (Option JsonValue) := do
  match (Text.lines (Text.trim out.toList)).getLast? with
  | none => return none
  | some line => return some (← JsonValue.read (String.ofList line))

/-- What a tool left on the error stream, and what it printed last. -/
def answer (run : ToolRun) : String × Except ToolFault (Option JsonValue) :=
  match run with
  | .ended _ out err => (err.getD "", match lastValue? (out.getD "") with
    | .ok v => .ok v
    | .error fault => .error (.data fault))
  | .timedOut => ("", .error .timedOut)
  | .notStarted => ("", .error .notStarted)

def faultNote (tool : String) (fault : ToolFault) : String :=
  "[" ++ tool ++ " runner: " ++ fault.word ++ "]\n"

/-- The shares of the benches, and the notes of the tool that measures them. -/
def askRepoTime (s : Setting) : RepoTime × String :=
  if !s.has "_pti_repotime.py" then ({}, "")
  else
    let (notes, found) := answer (s.run "_pti_repotime.py")
    match found with
    | .error fault => ({}, notes ++ faultNote "repotime" fault)
    | .ok none => ({}, notes)
    | .ok (some v) => match RepoTime.ofJson v with
      | .ok shares => (shares, notes)
      | .error fault => ({}, notes ++ faultNote "repotime" (.data fault))

/-- The files that the status tool names as modified; without its answer there are none. -/
def askModified (s : Setting) : List String :=
  match s.run "git" with
  | .ended _ out _ => modifiedFiles (out.getD "")
  | _ => []

/-- The verdicts on the benches, and the notes of the tool that checks them. -/
def askChecks (s : Setting) (modified : Bool) : List Checked × String :=
  if !s.has "_pti_semcheck.py" then ([], "")
  else
    let (notes, found) := answer (s.run "_pti_semcheck.py")
    match found with
    | .error fault => ([], notes ++ faultNote "semcheck" fault)
    | .ok none => ([], notes)
    | .ok (some v) =>
      match (do (JsonValue.orEmpty (← v.field? "semcheck")).fields) with
      | .error fault => ([], notes ++ faultNote "semcheck" (.data fault))
      | .ok entries =>
        let (checks, fault?) := judgeAll modified entries
        (checks, notes ++ match fault? with
          | some fault => faultNote "semcheck" (.data fault)
          | none => "")

/-- The lines of `items` up to the first that cannot be written. -/
def linesUntilFault {α : Type} (line : α → Except JsonFault String) :
    List α → List String × Option JsonFault
  | [] => ([], none)
  | a :: as => match line a with
    | .error fault => ([], some fault)
    | .ok text =>
      let (texts, fault) := linesUntilFault line as
      (text :: texts, fault)

/-- The lines on the shares, up to the first that cannot be written. -/
def RepoTime.lines (r : RepoTime) : List String × Option JsonFault :=
  if r.shares.isEmpty then ([], none)
  else
    let (texts, fault) := linesUntilFault (fun (name, share) => r.line name share) r.sorted
    (RepoTime.title :: texts ++ (if fault.isNone then [""] else []), fault)

def reportOn (s : Setting) (coverage : Coverage) (took : JsonValue) : Report :=
  let record := s.textOf recordName
  let lines := recordLines record
  let (repoTime, repoNotes) := askRepoTime s
  let modified := askModified s
  let (checks, checkNotes) := askChecks s !modified.isEmpty
  let round : Round := {
    number := roundNumber lines, now := s.now, coverage := coverage,
    benches := benchCount (s.textOf "microbench.py"), took := took,
    repoTime := repoTime, checks := checks }
  let report : Report := {
    notes := repoNotes ++ checkNotes
    record := (round.addTo (match s.files.entry recordName with
      | .file text => text
      | _ => "")).toOption }
  match coverage.table with
  | .error fault => { report with ending := .error (.data fault) }
  | .ok table =>
    let before := table ++ coverage.errorLines
    let (shares, fault?) := repoTime.lines
    match fault? with
    | some fault => { report with lines := before ++ shares, ending := .error (.data fault) }
    | none =>
      let checked := (if checks.isEmpty then [] else modifiedLines modified) ++ checkLines checks
      match round.summary with
      | .error fault =>
        { report with lines := before ++ shares ++ checked, ending := .error (.data fault) }
      | .ok summary =>
        let last := match convergence? lines round with
          | some c => ["", c.line]
          | none => []
        { report with lines := before ++ shares ++ checked ++ summary :: last }

def measure (s : Setting) : Report :=
  match s.run "_pti_cov_runner.py" with
  | .timedOut => { ending := .error .timedOut }
  | .notStarted => { ending := .error .notStarted }
  | .ended code _ err =>
    if code ≠ 0 then
      { lines := ["coverage measurement failed (exit " ++ toString code ++ ")", err.getD ""]
        ending := .ok code }
    else
      match s.files.read "_pti_coverage.json" with
      | .error fault => { ending := .error (.read fault) }
      | .ok text =>
        match (do Coverage.ofJson (← JsonValue.read text)), s.stop.minus s.start with
        | .ok coverage, .ok took => reportOn s coverage took
        | .error fault, _ => { ending := .error (.data fault) }
        | _, .error fault => { ending := .error (.data fault) }

end ExprLang.Measure
