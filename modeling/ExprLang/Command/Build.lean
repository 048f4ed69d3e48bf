/-
  Compiling a file.

  A compilation goes through stages: intermediate code, assembly, an object file and a program.  It
  ends in the stage that the name of the output file or an option asks for.  Assembling and linking
  are done by other programs (`Tools`), of which nothing is known here; the files in between are
  removed again unless such a program cannot be started.
-/
import ExprLang.Command.Request
import ExprLang.Code.Listing
import ExprLang.Source
import ExprLang.Fault

namespace ExprLang

/-! ## Files -/

namespace Files

/-- The files without the one at a path; nothing lies below a file. -/
def erase (files : Files) (path : String) : Files :=
  files.filter fun f => !(Place.ofPath f.1).isUnder (.ofPath path)

def write (files : Files) (path text : String) : Except ReadFault Files :=
  match files.entry path with
  | .file _ =>
    return files.map fun f => if names (.ofPath path) f.1 then (f.1, text) else f
  | .directory => throw (.isDirectory path)
  | .blocked => throw (.notDirectory path)
  | .missing =>
    match files.walk (.start path) (Text.splitAt '/' path.toList).dropLast with
    | .directory =>
      if path.isEmpty then throw (.noSuchFile path)
      else if path.endsWith "/" then throw (.isDirectory path)
      else return files ++ [(path, text)]
    | _ => throw (.noSuchFile path)

end Files

/-! ## Building -/

/-- Why a file cannot be compiled. -/
inductive BuildFault where
  | read (fault : ReadFault)
  | gen (fault : GenFault)
  | assembly (fault : AsmFault)
  | listing (fault : ListingFault)
  | unknownFileType
  /-- A stage was asked for that comes before the file's own. -/
  | noStage
  | noProgram (name : String)

def BuildFault.message : BuildFault → String
  | read f => f.message
  | gen f => f.message
  | assembly (.unknown c) => c.alone
  | assembly .noNumber => "an operand is no number"
  | listing .noLine => "there is no line to list"
  | listing .noColumn => "a mnemonic cannot be put in a column"
  | unknownFileType => "unknown file type"
  | noStage => "the output comes before the input"
  | noProgram name => s!"cannot start {name}"

/-- What other programs do, by their names, arguments and the files that they find: the code that
    they end with and the files that they leave, or why they cannot be run. -/
abbrev Tools := String → List String → Files → Except BuildFault (Int × Files)

/-- The file that a program is to make, which its arguments name behind `-o`. -/
def outputOf? (args : List String) : Option String := (args.dropWhile (· ≠ "-o"))[1]?

/-- Programs that end with given codes; one that ends well makes its file. -/
def Tools.ofCodes (codes : List (String × Int)) : Tools := fun name args files =>
  match codes.lookup name with
  | none => .error (.noProgram name)
  | some code =>
    match outputOf? args with
    | some path =>
      if code = 0 then do
        let files ← (files.write path ("made by " ++ name)).mapError .read
        return (0, files)
      else return (code, files)
    | none => return (code, files)

/-- A program that was started, and what came of it. -/
structure Started where
  name : String
  args : List String
  outcome : Except BuildFault (Int × Files)

/-- What a compilation can see and change. -/
structure Desk where
  files : Files
  tools : Tools
  /-- The programs that were started, the last one at the end. -/
  started : List Started
  /-- The text written to the output. -/
  page : String

/-- A computation on a desk. -/
abbrev Build := ExceptT BuildFault (StateM Desk)

namespace Build

/-- A result as a computation. -/
def ofExcept {α ε : Type} (fault : ε → BuildFault) : Except ε α → Build α
  | .ok a => pure a
  | .error e => throw (fault e)

def writeFile (path text : String) : Build Unit := do
  let files ← ofExcept .read ((← get).files.write path text)
  modify fun d => { d with files := files }

def removeFile (path : String) : Build Unit := do
  match (← get).files.entry path with
  | .file _ => modify fun d => { d with files := d.files.erase path }
  | .directory => throw (.read (.isDirectory path))
  | .blocked => throw (.read (.notDirectory path))
  | .missing => throw (.read (.noSuchFile path))

/-- Writes a text and a line end to a file or the output. -/
def writeResult (outfile text : String) : Build Unit :=
  if outfile = "-" then modify fun d => { d with page := d.page ++ text ++ "\n" }
  else writeFile outfile (text ++ "\n")

/-- Starts a program, and gives the code it ends with. -/
def start (name : String) (args : List String) : Build Int := do
  let d ← get
  let outcome := d.tools name args d.files
  modify fun d => { d with started := d.started ++ [⟨name, args, outcome⟩] }
  match outcome with
  | .error fault => throw fault
  | .ok (code, files) =>
    modify fun d => { d with files := files }
    return code

def assembleFile (asm object : String) : Build Int :=
  start "nasm" ["-g", "-F", "dwarf", "-o", object, "-f", "elf64", asm]

def link (object program : String) : Build Int :=
  start "gcc" ["-g", "-gdwarf", "-ggdb", "-z", "noexecstack", "-no-pie", "-o", program, object]

/-- The last part of a name, behind its last dot. -/
def suffix (name : String) : String :=
  String.ofList (name.toList.reverse.takeWhile (· != '.')).reverse

/-- What a file to compile holds. -/
inductive Origin where
  | source | asm | obj
deriving DecidableEq, Repr

def origin (file : String) : Build Origin :=
  match suffix file with
  | "incc24" => return .source
  | "s" => return .asm
  | "o" => return .obj
  | _ => throw .unknownFileType

/-- The stage that an output file holds, by its name. -/
def target (outfile : String) : Build (Option Stage) :=
  match suffix outfile with
  | "cma" | "mama" => return some .ir
  | "s" => return some .asm
  | "o" => return some .obj
  | "exe" => return some .exe
  | _ => if outfile = "-" then return none else throw .unknownFileType

/-- The intermediate code of a source file. -/
def compileFile (vm : Vm) (file : String) : Build Compiled := do
  let text ← ofExcept .read ((← get).files.read file)
  let e ← ofExcept .read (parse text)
  ofExcept .gen ((compile vm e).run.run GenState.initial).1

/-- Assembles a file, and links it if a program is asked for. -/
def finish (r : CompileRequest) (last : Stage) (asm : String) (temporary : Bool) : Build Unit := do
  let object := if last = .obj then r.outfile else "tmp.o"
  let code ← assembleFile asm object
  if temporary && !r.keepAsm then removeFile asm
  if code = 0 ∧ last ≠ .obj then
    let _ ← link object r.outfile
    removeFile object

def fromSource (r : CompileRequest) (last : Stage) : Build Unit := do
  let c ← compileFile r.vm r.file
  if last = .ir then
    writeResult r.outfile (← ofExcept .listing (listing c.code))
  else
    let text ← ofExcept .assembly (c.program r.vm)
    if last = .asm then writeResult r.outfile text
    else
      writeFile "tmp.s" text
      finish r last "tmp.s" true

def carryOut (r : CompileRequest) : Build Unit := do
  let from_ ← origin r.file
  let named ← target r.outfile
  match from_, r.emit.or named with
  | .source, some last => fromSource r last
  | .asm, some .ir | .obj, _ | _, none => throw .noStage
  | .asm, some last => finish r last r.file false

end Build

end ExprLang
