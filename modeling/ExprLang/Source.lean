/-
  Reading programs.

  * `parse` reads the expression that a text holds; a text may also be dropped as a whole by the
    recovery of the automaton, and then holds none;
  * `Files` are the files a program can see, and `Files.entry` is what stands at a path: its steps are
    followed one after the other through the directories;
  * `parseFile` reads the expression in a file: its positions name the file.
-/
import ExprLang.Grammar.Automaton
import ExprLang.Grammar.Meaning
import ExprLang.Text.Blank

namespace ExprLang

/-- Why a text is not a program. -/
inductive SyntaxFault where
  /-- No token starts with this character. -/
  | illegal (c : Char)
  /-- No expression goes on with this token, or ends here. -/
  | unexpected (t : Option Token)
  /-- A fault in the file at a path. -/
  | within (path : String) (fault : SyntaxFault)
deriving DecidableEq, Repr

def SyntaxFault.message : SyntaxFault → String
  | illegal c => s!"Illegal character '{c}'"
  | unexpected none => "Syntax error at token None"
  | unexpected (some t) => s!"Syntax error at token {t.describe}"
  | within path fault => s!"{fault.message} in {path}"

/-- Why a text or file cannot be read. -/
inductive ReadFault where
  | syntax_ (fault : SyntaxFault)
  /-- The text holds a `for` loop, for which there is no expression. -/
  | forLoop
  /-- The file holds no expression, so there is no position to mark. -/
  | empty
  /-- The file assigns to a bare name, which has no position to mark. -/
  | bareTarget
  /-- The calls that mark the positions are nested too deeply. -/
  | tooDeep
  | noSuchFile (path : String)
  | isDirectory (path : String)
  /-- A file stands where the path needs a directory. -/
  | notDirectory (path : String)
deriving DecidableEq, Repr

def parse (text : String) : Except ReadFault (Option Expr) :=
  match Grammar.derive (lex text) with
  | .tree t => return t.expr?
  | .nothing => return none
  | .unexpected t => throw (.syntax_ (.unexpected t))
  | .illegal c => throw (.syntax_ (.illegal c))
  | .forLoop => throw .forLoop

/-! ## Files -/

/-- The files that can be seen, by name.  A name that ends in a slash is that of a directory. -/
abbrev Files := List (String × String)

/-- A place in the tree of files: some steps down from its root, or from a directory above the one
    that the program runs in. -/
structure Place where
  /-- How far above the program's directory the steps start; `none` at the root. -/
  above : Option Nat
  steps : List (List Char)
deriving DecidableEq, Repr

namespace Place

def step (p : Place) (s : List Char) : Place :=
  if s = [] ∨ s = ['.'] then p
  else if s = ['.', '.'] then
    if p.steps = [] then { p with above := p.above.map (· + 1) }
    else { p with steps := p.steps.dropLast }
  else { p with steps := p.steps ++ [s] }

def start (path : String) : Place := ⟨if path.startsWith "/" then none else some 0, []⟩

def ofPath (path : String) : Place := (Text.splitAt '/' path.toList).foldl step (start path)

def isUnder (p q : Place) : Bool := p.above == q.above && q.steps.isPrefixOf p.steps

def name (p : Place) : String :=
  let start := match p.above with
    | none => [[]]
    | some n => List.replicate n ['.', '.']
  String.ofList (List.intercalate ['/'] (start ++ p.steps))

end Place

/-- What stands at a path. -/
inductive Entry where
  | file (text : String)
  | directory
  | missing
  /-- A file stands where the path goes on. -/
  | blocked
deriving DecidableEq, Repr

namespace Files

def names (p : Place) (name : String) : Bool := !name.endsWith "/" && Place.ofPath name == p

/-- What stands at a place.  The directories are those that hold something or have a name of their
    own; those where steps can start are always there. -/
def find (files : Files) (p : Place) : Entry :=
  match List.find? (fun f => names p f.1) files with
  | some f => .file f.2
  | none =>
    if p.steps.isEmpty || files.any (fun f => (Place.ofPath f.1).isUnder p) then .directory
    else .missing

/-- What stands some steps on from a place; only a directory has anything further on. -/
def walk (files : Files) : Place → List (List Char) → Entry
  | p, [] => files.find p
  | p, s :: rest =>
    match files.find p with
    | .directory => walk files (p.step s) rest
    | .file _ => .blocked
    | e => e

def entry (files : Files) (path : String) : Entry :=
  if path.isEmpty then .missing
  else files.walk (Place.start path) (Text.splitAt '/' path.toList)

/-- The text in a file, its line ends turned into line feeds. -/
def read (files : Files) (path : String) : Except ReadFault String :=
  match files.entry path with
  | .file text => return String.ofList (Text.unixLines text.toList)
  | .directory => throw (.isDirectory path)
  | .missing => throw (.noSuchFile path)
  | .blocked => throw (.notDirectory path)

end Files

/-- Why a file cannot be read whose positions cannot be marked. -/
def MarkFault.asRead : MarkFault → ReadFault
  | .bareTarget => .bareTarget
  | .tooDeep => .tooDeep

/-- The expression in a file, whose positions are marked in at most `room` nested calls. -/
def parseFile (room : Nat) (files : Files) (path : String) : Except ReadFault Expr := do
  let text ← files.read path
  match parse text with
  | .error (.syntax_ fault) => throw (.syntax_ (.within path fault))
  | .error fault => throw fault
  | .ok none => if room = 0 then throw .tooDeep else throw .empty
  | .ok (some e) => (e.within path room).mapError MarkFault.asRead

end ExprLang
