/-
  Command line arguments.

  A `Form` says which options and which argument a command takes.  An option may be shortened as
  long as no other one starts the same way, and its value may stand behind `=`, behind a short
  option at once, or in the next argument.  After `--` nothing is an option.

  * `Form.sort` sorts arguments into options and others;
  * `Form.read` goes through them from left to right; what does not belong anywhere is left over.
-/
import ExprLang.Text.Quoted
import ExprLang.Text.Blank
import ExprLang.Text.Digit

namespace ExprLang

/-- What stands behind an option. -/
inductive OptionValue where
  | nothing
  | any
  | oneOf (choices : List String)
deriving DecidableEq, Repr

/-- An option, by all its names. -/
structure OptionForm where
  names : List String
  value : OptionValue
deriving DecidableEq, Repr

/-- What a command takes: options, and one argument that may be required. -/
structure Form where
  program : String
  options : List OptionForm
  argument : String
  required : Bool

/-- An error in the arguments of a program. -/
structure UsageError where
  program : String
  text : String
deriving DecidableEq, Repr

def UsageError.message (e : UsageError) : String := e.program ++ ": error: " ++ e.text

/-- Why arguments are not carried out. -/
inductive Refusal where
  | usage (error : UsageError)
  /-- The arguments ask for help. -/
  | help
deriving DecidableEq, Repr

def choiceError (program argument value : String) (choices : List String) : UsageError :=
  ⟨program, "argument " ++ argument ++ ": invalid choice: " ++ Text.quoted value ++
    " (choose from " ++ ", ".intercalate (choices.map Text.quoted) ++ ")"⟩

/-- What an argument is. -/
inductive Sorted where
  | argument (text : String)
  /-- `--` -/
  | dashes
  /-- An option, the name it was given by, and a value that stands in the same argument. -/
  | option (form : OptionForm) (value : Option String)
  | unknown (text : String)

/-- What was read from the arguments. -/
structure Reading where
  /-- The options that were given, by their first names, the last one first. -/
  options : List (String × String)
  argument : Option String
  rest : List String

namespace Reading

/-- An option was given. -/
def has (r : Reading) (name : String) : Bool := r.options.any (·.1 == name)

def value? (r : Reading) (name : String) : Option String := r.options.lookup name

end Reading

namespace Form

def option? (f : Form) (name : String) : Option OptionForm :=
  f.options.find? fun o => o.names.contains name

def isNegativeNumber (s : String) : Bool :=
  match s.toList with
  | '-' :: cs =>
    let whole := cs.takeWhile Text.isDigit
    match cs.drop whole.length with
    | [] => !whole.isEmpty
    | '.' :: fraction => !fraction.isEmpty && fraction.all Text.isDigit
    | _ => false
  | _ => false

/-- The options that a long name may stand for: those that start with it. -/
def startingWith (f : Form) (start : String) : List (OptionForm × String) :=
  f.options.flatMap fun o => (o.names.filter (·.startsWith start)).map fun n => (o, n)

/-- The parts of an argument before and behind its first `=`. -/
def atEquals (s : String) : String × Option String :=
  match Text.cut? '=' s.toList with
  | some (a, b) => (String.ofList a, some (String.ofList b))
  | none => (s, none)

/-- The option and the value in an argument that starts with a dash, if any; several options are
    an error. -/
def sortOption (f : Form) (s : String) : Except UsageError Sorted :=
  let (name, value) := atEquals s
  match f.option? s, f.option? name with
  | some o, _ => return .option o none
  | none, some o => return .option o value
  | none, none =>
    let found : List (OptionForm × String × Option String) :=
      if s.startsWith "--" then (f.startingWith name).map fun (o, n) => (o, n, value)
      else
        let short := String.ofList (s.toList.take 2)
        ((f.option? short).toList.map fun o => (o, short, some (String.ofList (s.toList.drop 2)))) ++
          (f.startingWith s).map fun (o, n) => (o, n, none)
    match found with
    | [(o, _, v)] => return .option o v
    | [] =>
      if isNegativeNumber s || s.toList.contains ' ' then return .argument s
      else return .unknown s
    | several =>
      let names := ", ".intercalate (several.map fun (_, n, _) => n)
      throw ⟨f.program, s!"ambiguous option: {s} could match {names}"⟩

def sort (f : Form) : List String → Except UsageError (List Sorted)
  | [] => return []
  | "--" :: rest => return .dashes :: rest.map .argument
  | s :: rest => do
    let first ←
      if s.startsWith "-" && s.length > 1 then f.sortOption s else pure (.argument s)
    return first :: (← f.sort rest)

def optionError (f : Form) (o : OptionForm) (text : String) : Refusal :=
  .usage ⟨f.program, "argument " ++ "/".intercalate o.names ++ ": " ++ text⟩

def take (f : Form) (r : Reading) (o : OptionForm) (value : String) : Except Refusal Reading := do
  match o.value with
  | .oneOf choices =>
    if choices.contains value then pure ()
    else throw (.usage (choiceError f.program ("/".intercalate o.names) value choices))
  | _ => pure ()
  return { r with options := (o.names.headD "", value) :: r.options }

def takeArgument (r : Reading) (s : String) : Reading :=
  match r.argument with
  | none => { r with argument := some s }
  | some _ => { r with rest := r.rest ++ [s] }

def helpOption : OptionForm := ⟨["-h", "--help"], .nothing⟩

/-- Goes through sorted arguments. -/
def readSorted (f : Form) (r : Reading) : List Sorted → Except Refusal Reading
  | [] => return r
  | .unknown s :: rest => f.readSorted { r with rest := r.rest ++ [s] } rest
  | .argument s :: .dashes :: rest =>
    if r.argument.isNone then f.readSorted (takeArgument r s) rest
    else f.readSorted { r with rest := r.rest ++ [s, "--"] } rest
  | .argument s :: rest => f.readSorted (takeArgument r s) rest
  | .dashes :: .argument s :: rest =>
    if r.argument.isNone then f.readSorted (takeArgument r s) rest
    else f.readSorted { r with rest := r.rest ++ ["--", s] } rest
  | .dashes :: rest =>
    if r.argument.isNone ∧ ¬ f.required then f.readSorted r rest
    else f.readSorted { r with rest := r.rest ++ ["--"] } rest
  | .option o value :: rest =>
    if o = helpOption then throw .help
    else
      match o.value, value with
      | .nothing, some v => throw (f.optionError o ("ignored explicit argument " ++ Text.quoted v))
      | .nothing, none => do f.readSorted (← f.take r o "") rest
      | _, some v => do f.readSorted (← f.take r o v) rest
      | _, none =>
        match rest with
        | .argument v :: rest => do f.readSorted (← f.take r o v) rest
        | _ => throw (f.optionError o "expected one argument")

def read (f : Form) (args : List String) : Except Refusal Reading := do
  let sorted ← (f.sort args).mapError .usage
  let r ← f.readSorted ⟨[], none, []⟩ sorted
  if f.required && r.argument.isNone then
    throw (.usage ⟨f.program, "the following arguments are required: " ++ f.argument⟩)
  return r

end Form

end ExprLang
