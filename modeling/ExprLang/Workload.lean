/-
  Workloads: the parts of the program put to work on inputs of a chosen size.

  Each workload gives sums, counts and lengths of texts, so that two runs can be compared.
-/
import ExprLang.Code.Layout
import ExprLang.Command
import ExprLang.Workload.Program

namespace ExprLang.Workload

/-- What a workload gives: a value, or a list of values. -/
inductive Result where
  | one (v : Value)
  | many (vs : List Value)

def counted (n : Nat) : Value := .int n

/-! ## Evaluating -/

/-- A session in which the debugger never stops. -/
def undisturbed : World :=
  let w := Session.start [] []
  { w with debugger := { w.debugger with stopped := true } }

/-- The outcome of a text in a session of its own, and the session afterwards. -/
def outcome (text : String) : Except Fault Value × World :=
  (Session.evalText text).run.run undisturbed

/-- The total of the tour, with the texts of two of its functions and how they compare. -/
def interpret (size : Int) : Except Fault Result := do
  let (result, w) := outcome (tour size)
  let total ← result
  let one := (w.scopes.get? Session.globals "inc").getD .null
  let many := (w.scopes.get? Session.globals "va").getD .null
  return .one (.tuple [total, .text (one.alone w.scopes), .text (one.alone w.scopes),
    .text (many.alone w.scopes), .bool (← one.equals one), .bool !(← one.equals many), .null])

/-- Texts that fail: the first three cannot be read, the others cannot be evaluated. -/
def faultyTexts : List String := [
  "1 +",
  ")",
  "x = = 1",
  "nope",
  "1 / 0",
  "1 + nil",
  "head(nil)",
  "tail(nil)",
  "nope(1)",
  "1()",
  "[1, 2][5]",
  "\x7b\"a\": 1\x7d[\"b\"]",
  "\"a\" - 1",
  "loop \"x\" do 1",
  "import \"missing\"",
  "struct \x7b .a = 1 \x7d.b"]

/-- How much a fault counts. -/
def faultWeight : Except Fault Value → Nat
  | .ok _ => 0
  | .error (.read (.syntax_ _)) => 3
  | .error _ => 2

def tokenSample : String :=
  braced ("fun fact n -> if n == 0 then 1 else n * fact(n - 1); " ++
    "fun twice f, x -> f(f(x)); twice(fact, 3) + 1")

def tokenCount (text : String) : Nat := (lex text).tokens.length

/-- The weights of `cases` faults, and the tokens of a sample. -/
def interpretFaults (cases : Int) : Result :=
  let weights := (cycle faultyTexts cases.toNat).map fun text => faultWeight (outcome text).1
  .one (counted (weights.foldl (· + ·) (tokenCount tokenSample)))

/-! ## Debugging -/

/-- The program that is debugged.  It stops once, and its value is three. -/
def debugged : String := braced "a = 1; b = 2; trap; a + b"

/-- The command that is given as number `i` of `size` while an expression is watched: every tenth
    one after the eightieth shows the variables, and the others ask for nothing. -/
def idleCommand (size i : Nat) : String :=
  if 80 ≤ i && i % 10 == 0 && i + 10 ≤ size then "v" else ""

/-- The commands at the stop: some evaluations, then `size` commands while an expression is
    watched, of which the last goes on.  One more is never read. -/
def debugScript (size : Nat) : List String :=
  List.replicate (max 10 (size - 80)) "e a+b" ++ "w a<b" ::
    (List.range (size - 1)).map (idleCommand size) ++ ["c", "c"]

def bareWorld (input : List String) : World :=
  let (_, scopes) := Forest.addRoot Forest.empty
  { Session.emptyWorld [] input with scopes := scopes }

def writtenLength (w : World) (prompt : String) : Nat :=
  let pages := (Session.takePages w).1
  (pages.map String.length).foldl (· + ·) 0 - (pages.length - 1) * prompt.length

/-- What the debugger watches and does after a session, the lines left unread, the value of the
    program and how much was written. -/
def debugging (size : Int) : Except Fault Result := do
  let run : Run Value := do evalProgram (← Run.parsed debugged) Session.globals
  let (result, w) := run.run.run (bareWorld (debugScript size.toNat))
  let v ← result
  return .one (.tuple [counted w.debugger.watches.length, .bool w.debugger.stepping,
    counted w.input.length, v, counted (writtenLength w (Pos.prompt ⟨[], 1, 1⟩))])

/-! ## Compiling -/

/-- Why a compilation cannot be measured. -/
inductive CompileFault where
  | read (fault : ReadFault)
  | gen (fault : GenFault)
  | assembly (fault : AsmFault)
  | listing (fault : ListingFault)

/-- The intermediate code of a text, made with the counters reached so far. -/
def compileText (vm : Vm) (text : String) (s : GenState) :
    Except CompileFault (Compiled × GenState) := do
  let e ← (parse text).mapError .read
  match (compile vm e).run.run s with
  | (.ok c, s) => return (c, s)
  | (.error fault, _) => throw (.gen fault)

def listingLength (c : Compiled) : Except CompileFault Nat :=
  return (← (listing c.code).mapError .listing).length

def programLength (vm : Vm) (c : Compiled) : Except CompileFault Nat :=
  return (← (c.program vm).mapError .assembly).length

def plainLength (vm : Vm) (mnemonics : List String) : Except CompileFault Nat := do
  let code := mnemonics.map fun m => Cell.tuple [.text m]
  return (← (assemble vm (.block code)).mapError .assembly).length

/-- The sizes of the imperative program on the stack machine, of instructions that it does not
    use, and of its listing without the nested loop. -/
def compileImperative (size : Int) : Except CompileFault Result := do
  let (whole, s) ← compileText .cma (imperative size true) .initial
  let (flat, _) ← compileText .cma (imperative size false) s
  return .one (.tuple [counted whole.code.length, counted (← programLength .cma whole),
    counted (← plainLength .cma ["dup", "swap", "inc"]), counted (← listingLength flat)])

/-- The sizes of the functional program on its machine, and of instructions that it does not
    use. -/
def compileFunctional (terms : Int) : Except CompileFault Result := do
  let (c, _) ← compileText .mama (functional terms) .initial
  return .one (.tuple [counted c.code.length, counted (← programLength .mama c),
    counted (← plainLength .mama ["pop", "dup", "swap", "inc"])])

/-- Texts for which neither machine has code. -/
def uncompilable : List String := [
  "\"s\"",
  "'c'",
  "[1]",
  "\x7b1: 2\x7d",
  "true",
  "this",
  "trap",
  "import \"x\"",
  "lock x in 1"]

/-- Whether a text has no code on a machine. -/
def fails (vm : Vm) (text : String) : Bool :=
  match compileText vm text .initial with
  | .error (.gen _) => true
  | _ => false

/-- The number of failures on both machines. -/
def failures : Nat := uncompilable.countP (fails .cma) + uncompilable.countP (fails .mama)

/-- The instructions of both programs, and the failures. -/
def compileFaults (size : Int) : Except CompileFault Result := do
  let (whole, s) ← compileText .cma (imperative size true) .initial
  let (sum, _) ← compileText .mama (functional (max 4 (size / 2))) s
  return .one (counted (whole.code.length + sum.code.length + failures))

def fileBytes (files : Files) : Nat :=
  (files.map fun (_, text) => text.utf8ByteSize).foldl (· + ·) 0

/-- The bytes of the listings of both programs, and of all files that a build leaves behind, its
    source apart, if the assembler fails. -/
def buildFiles (size : Int) : Except CompileFault Result := do
  let (flat, s) ← compileText .cma (imperative size false) .initial
  let (sum, _) ← compileText .mama (functional (max 5 (size / 2))) s
  let source := ("p.incc24", functional size)
  let failed := command ["c", source.1, "-o", "p.exe"] [source] []
    (.ofCodes [("nasm", 1), ("gcc", 0)])
  return .many [counted ((← listingLength flat) + 1), counted ((← listingLength sum) + 1),
    counted (fileBytes failed.files - fileBytes [source])]

/-! ## Layout and labels -/

/-- The lines that are laid out, in turn. -/
def layoutSamples : List String := [
  "start: mov rax, rbx ; copy",
  "add rax, 1",
  "next: sub rax, rcx",
  ";;; section marker",
  "ret",
  "push rax",
  "pop rbx",
  "mov rcx, rax ; save"]

/-- The lengths of some lines laid out once and twice, the number of distinct labels made, and
    whether the second layout changed nothing. -/
def layoutCode (size : Int) : Result :=
  let once := layout ("\n".intercalate (cycle layoutSamples size.toNat))
  let twice := layout once
  let names := cycle ["loop", "end", "then"] (3 * size).toNat
  let labels := ((Labels.empty.freshAll (names ++ cycle ["label"] (16 - names.length))).1).eraseDups
  .one (.tuple [counted once.length, counted twice.length, counted labels.length,
    .bool (once == twice)])

/-! ## Commands -/

/-- A program that adds up the numbers from one to `n`. -/
def adding (n : Int) : String :=
  braced ("s = 0; i = 0; loop " ++ toString n.toNat ++ " do " ++ braced "i = i + 1; s = s + i" ++
    "; s")

def Ending.word : Ending → String
  | .done => "ok"
  | .refused _ => "sx"
  | .failed _ => "stop"

/-- The length of what a command wrote, without the prompts of its session, or of the text that
    refuses it. -/
def outcomeLength (o : Outcome) : Nat :=
  match o.ending with
  | .refused (.usage e) => (Request.errorText e).length
  | _ => (o.pages.map String.length).foldl (· + ·) 0 - (o.pages.length - 1) * "> ".length

/-- Five commands, with how each ended, and the length of all that they wrote. -/
def commands (n : Int) : Result :=
  let files : Files := [("add.incc24", adding n), ("small.incc24", "1 + 2")]
  let run (args : List String) (input : List String) : Outcome :=
    command args files input (.ofCodes [])
  let outcomes := [
    run ["i", "add.incc24"] [],
    run ["c", "small.incc24", "--vm", "cma", "--emit", "ir"] [],
    run ["i", "--stop-on-error"] [],
    run ["c", "small.incc24", "-o", "-"] [],
    run ["i", "--repl", "--stop-on-error"] ["100", "nope"]]
  .many (outcomes.map (fun o => .text (Ending.word o.ending)) ++
    [counted ((outcomes.map outcomeLength).foldl (· + ·) 0)])

/-! ## Scopes -/

/-- Adds `n` scopes, each in the one before, that bind the numbers from `first` on. -/
def nest (f : Forest Value Nat) (id : Nat) (first : Nat) : Nat → Forest Value Nat × Nat
  | 0 => (f, id)
  | n + 1 =>
    let name := "v" ++ toString first
    let (inner, f) := f.push id [name] .null
    nest (f.bind inner name (counted first)) inner (first + 1) n

def numberOf (f : Forest Value Nat) (id : Nat) (name : String) : Int :=
  match f.get? id name with
  | some (.int i) => i
  | _ => 0

def describedLength : Nat :=
  let (root, f) := Forest.addRoot (Forest.empty : Forest Value Nat)
  let (middle, f) := (f.bind root "x" (counted 1)).push root [] .null
  let (inner, f) := (f.bind middle "y" (counted 2)).push middle [] .null
  ((f.bind inner "z" (counted 3)).describe Value.inner inner).length

/-- Whether a name is seen from a scope. -/
def sees (f : Forest Value Nat) (id : Nat) (name : String) : Except Fault Value :=
  match f.has? depthLimit id name with
  | some b => return .bool b
  | none => throw .tooDeep

/-- The sum of what is bound in nested scopes, as it is seen from the innermost, the length of a
    description, and whether a name of the outermost and one of none is seen. -/
def nesting (depth : Int) : Except Fault Result := do
  let (root, f) := Forest.addRoot (Forest.empty : Forest Value Nat)
  let (f, inner) := nest (f.bind root "root" (counted 0)) root 1 depth.toNat
  let values := (List.range depth.toNat).map fun i => numberOf f inner ("v" ++ toString (i + 1))
  return .one (.tuple [.int (values.foldl (· + ·) 0), counted describedLength,
    ← sees f inner "root", ← sees f inner "nowhere"])

end ExprLang.Workload
