/-
  CMa code for expressions.

  Global variables get addresses in the order in which they are first assigned, eight bytes each.
  Inside a procedure, its parameters lie below the frame and its locals above it; all else is
  global.
-/
import ExprLang.CMa.Instr
import ExprLang.Code.Gen

namespace ExprLang.CMa

/-- The code of an operator before an operand. -/
def unaryOp : UnOp → Except GenFault UnaryOp
  | .minus => return .neg
  | op => throw (.noOperator op.text)

/-- The code of an operator between operands. -/
def binaryOp : BinOp → Except GenFault BinaryOp
  | .plus => return .add | .minus => return .sub | .times => return .mul | .divide => return .div
  | .lt => return .le | .gt => return .gr | .le => return .leq | .ge => return .geq
  | .eqs => return .eq | .neqs => return .neq
  | op => throw (.noOperator op.text)

/-- Makes `name` a global variable if it is not known. -/
def declare (frame : Slots) (name : String) : Gen Unit := do
  if (← slot? frame name).isNone then
    modify fun s =>
      { s with next := s.next + 8, globals := s.globals.put name ⟨.global, s.next, some 8⟩ }

def address (frame : Slots) (name : String) : Gen (List Item) := do
  match ← slot? frame name with
  | some ⟨.global, a, _⟩ => return [.instr (.loadc (.int a))]
  | some ⟨_, a, _⟩ => return [.instr (.loadrc (.int a))]
  | none => throw (.unknownVariable name)

def paramSlots (a : Int) : List String → Slots → Slots
  | [], slots => slots
  | x :: xs, slots => paramSlots (a - 8) xs (slots.put x ⟨.argument, a, some 8⟩)

def localSlots (a : Int) : List String → Slots → Slots
  | [], slots => slots
  | x :: xs, slots => localSlots (a + 8) xs (slots.put x ⟨.local_, a, some 8⟩)

def procFrame (params locals : List String) : Slots :=
  localSlots 8 locals (paramSlots (-16) params [])

def localBytes (frame : Slots) : Nat :=
  ((frame.filter (·.2.storage == .local_)).map fun s => s.2.size.getD 0).foldl (· + ·) 0

mutual

def value (frame : Slots) : Expr → Gen (List Item)
  | .number _ text => return [.instr (.loadc (.text text))]
  | .unary _ op a => do
    let a ← value frame a
    let op ← unaryOp op
    return a ++ [.instr (.unary op)]
  | .binary _ op a b => do
    let a ← value frame a
    let b ← value frame b
    let op ← binaryOp op
    return a ++ b ++ [.instr (.binary op)]
  | .index _ a b => do
    let _ ← value frame a
    let _ ← value frame b
    throw (.noOperator "[]")
  | .assign _ (.var _ name) a => do
    declare frame name
    let a ← value frame a
    let x ← address frame name
    return a ++ x ++ [.instr .store]
  | .var _ name => do
    let x ← address frame name
    return x ++ [.instr .load]
  | .sequence _ parts => valueOfLast frame parts
  | .ifThen _ c a b => do
    let ifL ← freshLabel "if"
    let thenL ← freshLabel "then"
    let elseL ← freshLabel "else"
    let endL ← freshLabel "endif"
    let c ← value frame c
    let a ← value frame a
    let b ← valueOrZero frame b
    return .instr (.label (.text ifL)) :: c ++
      .instr (.jumpz (.text elseL)) :: .instr (.label (.text thenL)) :: a ++
      .instr (.jump (.text endL)) :: .instr (.label (.text elseL)) :: b ++
      [.instr (.label (.text endL))]
  | .whileDo _ c a => do
    let whileL ← freshLabel "while"
    let endL ← freshLabel "end_while"
    let c ← value frame c
    let a ← value frame a
    return .instr (.loadc (.int 0)) :: .instr (.label (.text whileL)) :: c ++
      [.instr (.jumpz (.text endL)), .instr .pop, .block a, .instr (.jump (.text whileL)),
       .instr (.label (.text endL))]
  | .loop _ n a => do
    let loopL ← freshLabel "loop"
    let endL ← freshLabel "endloop"
    let n ← value frame n
    let a ← value frame a
    return .instr (.loadc (.int 0)) :: n ++
      [.instr (.label (.text loopL)), .instr .dup, .instr (.jumpz (.text endL)),
       .instr (.unary .dec), .instr .swap, .instr .pop] ++ a ++
      [.instr .swap, .instr (.jump (.text loopL)), .instr (.label (.text endL)), .instr .pop]
  | .doWhile _ c a => do
    let doL ← freshLabel "dowhile"
    let endL ← freshLabel "enddowhile"
    let a ← value frame a
    let c ← value frame c
    return .instr (.label (.text doL)) :: a ++ c ++
      [.instr (.jumpz (.text endL)), .instr (.jump (.text doL)), .instr (.label (.text endL))]
  | .proc _ params locals body => do
    let procL ← freshLabel "proc"
    let endL ← freshLabel "endproc"
    let inner := procFrame params locals
    let body ← value inner body
    return [.instr (.jump (.text endL)), .instr (.label (.text procL)), .instr .enter,
        .instr (.alloc (.int (localBytes inner)))] ++ body ++
      [.instr (.loadrc (.int (-16))), .instr .store, .instr .pop, .instr .ret,
       .instr (.label (.text endL)), .instr (.loadc (.text procL))]
  | .call _ f args => do
    let code ← valuesReversed frame args
    let f ← value frame f
    return code ++ .instr .mark :: f ++
      [.instr .call, .instr .pop, .instr (.slide (.int (8 * (args.length : Int) - 8)))]
  | e => throw (.unsupported e)

/-- The code for all parts of a sequence; the value of the last one stays. -/
def valueOfLast (frame : Slots) : List Expr → Gen (List Item)
  | [] => throw .noParts
  | [a] => value frame a
  | a :: as => do
    let a ← value frame a
    let as ← valueOfLast frame as
    return a ++ .instr .pop :: as

/-- The code for arguments, the last one first. -/
def valuesReversed (frame : Slots) : List Expr → Gen (List Item)
  | [] => return []
  | a :: as => do
    let as ← valuesReversed frame as
    let a ← value frame a
    return as ++ a

/-- The code of a part that may be missing; a missing part counts as zero. -/
def valueOrZero (frame : Slots) : Option Expr → Gen (List Item)
  | none => return [.instr (.loadc (.int 0))]
  | some a => value frame a

end

/-- The code that runs an expression and drops its value. -/
def effect (frame : Slots) (e : Option Expr) : Gen (List Item) :=
  return (← valueOrZero frame e) ++ [.instr .pop]

/-- The code for the place that an expression stands for: only variables have one. -/
def place (frame : Slots) : Option Expr → Gen (List Item)
  | some (.var _ name) => address frame name
  | some e => throw (.unsupported e)
  | none => throw .missing

end ExprLang.CMa
