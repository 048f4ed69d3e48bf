/-
  Expressions.

  A program is one expression.  Every node carries the lines it was written on, and the file if it
  was read from one; two expressions are equal (`Expr.beq`) only if these agree as well.
-/

namespace ExprLang

/-- Where a node was written: its first and last line, and the paths of the files that it was marked
    with, the last mark first. -/
structure Pos where
  files : List String
  first : Nat
  last : Nat
deriving DecidableEq, Repr

/-- The two parts of a position that messages begin with. -/
def Pos.start (p : Pos) : String × String :=
  match p.files with
  | [] => (toString p.first, toString p.last)
  | [path] => (path, toString p.first)
  | path :: above :: _ => (path, above)

/-- The operators before an operand. -/
inductive UnOp where
  | not | plus | minus
deriving DecidableEq, Repr

/-- The operators between two operands. -/
inductive BinOp where
  | plus | minus | times | divide
  | lt | gt | le | ge
  /-- `==` -/
  | eqs
  /-- `!=` -/
  | neqs
  /-- The word `eq`. -/
  | eq
  /-- The word `neq`. -/
  | neq
  | and | or | nand | nor | imp | xor
deriving DecidableEq, Repr

/-- The operator as it stands in a tree. -/
def UnOp.text : UnOp → String
  | not => "NOT" | plus => "+" | minus => "-"

/-- The operator as it stands in a tree. -/
def BinOp.text : BinOp → String
  | plus => "+" | minus => "-" | times => "*" | divide => "/"
  | lt => "<" | gt => ">" | le => "<=" | ge => ">=" | eqs => "==" | neqs => "!="
  | eq => "EQ" | neq => "NEQ" | and => "AND" | or => "OR" | nand => "NAND" | nor => "NOR"
  | imp => "IMP" | xor => "XOR"

/-- The left side of an assignment.  `fun` assigns to a bare name, which is no node of its own. -/
inductive Target where
  | var (pos : Pos) (name : String)
  | bare (name : String)
deriving DecidableEq, Repr

def Target.name : Target → String
  | var _ name | bare name => name

/-- One binding `x = e` of a `local`. -/
structure Binding (α : Type) where
  pos : Pos
  target : Target
  value : α

/-- One initialiser `.x = e` of a struct. -/
structure Field (α : Type) where
  pos : Pos
  name : String
  value : α

inductive Expr where
  /-- A number, as it was written. -/
  | number (pos : Pos) (text : String)
  | bool (pos : Pos) (value : Bool)
  | string (pos : Pos) (text : String)
  | char (pos : Pos) (text : String)
  /-- `[a, b]` -/
  | array (pos : Pos) (elements : List Expr)
  /-- `{k : v, l : w}` -/
  | dict (pos : Pos) (entries : List (Expr × Expr))
  | unary (pos : Pos) (op : UnOp) (operand : Expr)
  | binary (pos : Pos) (op : BinOp) (left right : Expr)
  /-- `a[i]` -/
  | index (pos : Pos) (left right : Expr)
  /-- `x = e` -/
  | assign (pos : Pos) (target : Target) (value : Expr)
  | var (pos : Pos) (name : String)
  /-- `lock x, y in e` -/
  | lock (pos : Pos) (names : List String) (body : Expr)
  /-- `local x = e, y = f in g` -/
  | letIn (pos : Pos) (bindings : List (Binding Expr)) (body : Expr)
  /-- `{a; b; c}` -/
  | sequence (pos : Pos) (parts : List Expr)
  /-- `loop n do e` -/
  | loop (pos : Pos) (count body : Expr)
  /-- `while c do e` -/
  | whileDo (pos : Pos) (condition body : Expr)
  /-- `do e while c` -/
  | doWhile (pos : Pos) (condition body : Expr)
  /-- `if c then a else b`; the last part may be missing. -/
  | ifThen (pos : Pos) (condition yes : Expr) (no : Option Expr)
  /-- `\x, y -> e`, or with `rest` `\x, y... -> e`. -/
  | lambda (pos : Pos) (params : List String) (body : Expr) (rest : Bool)
  /-- `proc (x, y) u, v -> e` -/
  | proc (pos : Pos) (params locals : List String) (body : Expr)
  /-- `f(a, b)` -/
  | call (pos : Pos) (callee : Expr) (arguments : List Expr)
  /-- `struct {.x = e}`, or with a parent `extend p {.x = e}`. -/
  | struct (pos : Pos) (fields : List (Field Expr)) (parent : Option Expr)
  /-- `e.x`; each further dot goes one level up. -/
  | member (pos : Pos) (owner : Expr) (name : String) (up : Nat)
  /-- `.x = e` -/
  | memberAssign (pos : Pos) (name : String) (value : Expr)
  | this (pos : Pos)
  /-- `import "path"` -/
  | importFile (pos : Pos) (path : String)
  | trap (pos : Pos)

def Expr.pos : Expr → Pos
  | number p _ | bool p _ | string p _ | char p _ | array p _ | dict p _ | unary p _ _
  | binary p _ _ _ | index p _ _ | assign p _ _ | var p _ | lock p _ _ | letIn p _ _
  | sequence p _ | loop p _ _ | whileDo p _ _ | doWhile p _ _ | ifThen p _ _ _
  | lambda p _ _ _ | proc p _ _ _ | call p _ _ | struct p _ _ | member p _ _ _
  | memberAssign p _ _ | this p | importFile p _ | trap p => p

/-! ## Equality -/

mutual

/-- Equality of expressions, positions included. -/
def Expr.beq : Expr → Expr → Bool
  | .number p s, .number q t | .string p s, .string q t | .char p s, .char q t => p == q && s == t
  | .bool p a, .bool q b => p == q && a == b
  | .array p es, .array q fs => p == q && beqList es fs
  | .dict p es, .dict q fs => p == q && beqEntries es fs
  | .unary p o a, .unary q u b => p == q && o == u && a.beq b
  | .binary p o a b, .binary q u c d => p == q && o == u && a.beq c && b.beq d
  | .index p a b, .index q c d => p == q && a.beq c && b.beq d
  | .assign p s a, .assign q t b => p == q && s == t && a.beq b
  | .var p s, .var q t => p == q && s == t
  | .lock p ns a, .lock q ms b => p == q && ns == ms && a.beq b
  | .letIn p bs a, .letIn q cs b => p == q && beqBindings bs cs && a.beq b
  | .sequence p es, .sequence q fs => p == q && beqList es fs
  | .loop p a b, .loop q c d => p == q && a.beq c && b.beq d
  | .whileDo p a b, .whileDo q c d => p == q && a.beq c && b.beq d
  | .doWhile p a b, .doWhile q c d => p == q && a.beq c && b.beq d
  | .ifThen p a b c, .ifThen q d e f => p == q && a.beq d && b.beq e && beqOption c f
  | .lambda p ns a r, .lambda q ms b s => p == q && ns == ms && a.beq b && r == s
  | .proc p ns ls a, .proc q ms ks b => p == q && ns == ms && ls == ks && a.beq b
  | .call p f as, .call q g bs => p == q && f.beq g && beqList as bs
  | .struct p fs a, .struct q gs b => p == q && beqFields fs gs && beqOption a b
  | .member p a n u, .member q b m v => p == q && a.beq b && n == m && u == v
  | .memberAssign p n a, .memberAssign q m b => p == q && n == m && a.beq b
  | .this p, .this q | .trap p, .trap q => p == q
  | .importFile p s, .importFile q t => p == q && s == t
  | _, _ => false

def Expr.beqList : List Expr → List Expr → Bool
  | [], [] => true
  | a :: as, b :: bs => a.beq b && beqList as bs
  | _, _ => false

def Expr.beqEntries : List (Expr × Expr) → List (Expr × Expr) → Bool
  | [], [] => true
  | (k, v) :: as, (l, w) :: bs => k.beq l && v.beq w && beqEntries as bs
  | _, _ => false

def Expr.beqBindings : List (Binding Expr) → List (Binding Expr) → Bool
  | [], [] => true
  | ⟨p, s, a⟩ :: as, ⟨q, t, b⟩ :: bs => p == q && s == t && a.beq b && beqBindings as bs
  | _, _ => false

def Expr.beqFields : List (Field Expr) → List (Field Expr) → Bool
  | [], [] => true
  | ⟨p, n, a⟩ :: as, ⟨q, m, b⟩ :: bs => p == q && n == m && a.beq b && beqFields as bs
  | _, _ => false

/-- Equality of parts that may be missing. -/
def Expr.beqOption : Option Expr → Option Expr → Bool
  | none, none => true
  | some a, some b => a.beq b
  | _, _ => false

end

instance : BEq Expr := ⟨Expr.beq⟩

/-! ## The file of an expression -/

/-- The position `p`, marked with the file `path`. -/
def Pos.within (path : String) (p : Pos) : Pos := { p with files := path :: p.files }

/-- Why the positions of an expression cannot be marked with a file. -/
inductive MarkFault where
  /-- The target of an assignment is a bare name, which has no position. -/
  | bareTarget
  /-- Every node is marked in a call of its own, and the calls are nested too deep. -/
  | tooDeep
deriving DecidableEq, Repr

def Target.within (path : String) : Nat → Target → Except MarkFault Target
  | 0, _ => throw .tooDeep
  | _ + 1, .var p n => return .var (p.within path) n
  | _ + 1, .bare _ => throw .bareTarget

mutual

/-- Marks all positions of an expression with the file `path`, in at most `room` nested calls. -/
def Expr.within (path : String) (room : Nat) (e : Expr) : Except MarkFault Expr :=
  match room with
  | 0 => throw .tooDeep
  | room + 1 =>
    match e with
    | .number p s => return .number (p.within path) s
    | .bool p b => return .bool (p.within path) b
    | .string p s => return .string (p.within path) s
    | .char p s => return .char (p.within path) s
    | .array p es => return .array (p.within path) (← withinList path room es)
    | .dict p es => return .dict (p.within path) (← withinEntries path room es)
    | .unary p o a => return .unary (p.within path) o (← a.within path room)
    | .binary p o a b =>
      return .binary (p.within path) o (← a.within path room) (← b.within path room)
    | .index p a b => return .index (p.within path) (← a.within path room) (← b.within path room)
    | .assign p t a =>
      return .assign (p.within path) (← t.within path room) (← a.within path room)
    | .var p n => return .var (p.within path) n
    | .lock p ns a => return .lock (p.within path) ns (← a.within path room)
    | .letIn p bs a =>
      return .letIn (p.within path) (← withinBindings path room bs) (← a.within path room)
    | .sequence p es => return .sequence (p.within path) (← withinList path room es)
    | .loop p a b => return .loop (p.within path) (← a.within path room) (← b.within path room)
    | .whileDo p a b =>
      return .whileDo (p.within path) (← a.within path room) (← b.within path room)
    | .doWhile p a b =>
      return .doWhile (p.within path) (← a.within path room) (← b.within path room)
    | .ifThen p a b c =>
      return .ifThen (p.within path) (← a.within path room) (← b.within path room)
        (← withinOption path room c)
    | .lambda p ns a r => return .lambda (p.within path) ns (← a.within path room) r
    | .proc p ns ls a => return .proc (p.within path) ns ls (← a.within path room)
    | .call p f as => do
      let as ← withinList path room as
      return .call (p.within path) (← f.within path room) as
    | .struct p fs a => do
      let a ← withinOption path room a
      return .struct (p.within path) (← withinFields path room fs) a
    | .member p a n u => return .member (p.within path) (← a.within path room) n u
    | .memberAssign p n a => return .memberAssign (p.within path) n (← a.within path room)
    | .this p => return .this (p.within path)
    | .importFile p s => return .importFile (p.within path) s
    | .trap p => return .trap (p.within path)

def Expr.withinList (path : String) (room : Nat) : List Expr → Except MarkFault (List Expr)
  | [] => return []
  | a :: as => return (← a.within path room) :: (← withinList path room as)

def Expr.withinEntries (path : String) (room : Nat) :
    List (Expr × Expr) → Except MarkFault (List (Expr × Expr))
  | [] => return []
  | (k, v) :: as =>
    return (← k.within path room, ← v.within path room) :: (← withinEntries path room as)

/-- `within` on bindings, each of which is a node with a target and a value below it. -/
def Expr.withinBindings (path : String) (room : Nat) :
    List (Binding Expr) → Except MarkFault (List (Binding Expr))
  | [] => return []
  | ⟨p, t, a⟩ :: as =>
    match room with
    | 0 => throw .tooDeep
    | inner + 1 =>
      return ⟨p.within path, ← t.within path inner, ← a.within path inner⟩ ::
        (← withinBindings path (inner + 1) as)

/-- `within` on initialisers, each of which is a node with a value below it. -/
def Expr.withinFields (path : String) (room : Nat) :
    List (Field Expr) → Except MarkFault (List (Field Expr))
  | [] => return []
  | ⟨p, n, a⟩ :: as =>
    match room with
    | 0 => throw .tooDeep
    | inner + 1 =>
      return ⟨p.within path, n, ← a.within path inner⟩ :: (← withinFields path (inner + 1) as)

def Expr.withinOption (path : String) (room : Nat) : Option Expr → Except MarkFault (Option Expr)
  | none => return none
  | some a => return some (← a.within path room)

end

end ExprLang
