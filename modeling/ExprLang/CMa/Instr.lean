/-
  The instructions of the CMa, a stack machine with a frame pointer.

  * `Instr` is the instruction set, `Item` an instruction or a block of them;
  * `Instr.cell` writes an instruction as a cell, and `Instr.ofCell?` reads it back.
-/
import ExprLang.Code.Cell

namespace ExprLang.CMa

/-- The operators on one word. -/
inductive UnaryOp where
  | neg | inc | dec
deriving DecidableEq, Repr

/-- The operators on two words. -/
inductive BinaryOp where
  | add | sub | mul | div | le | gr | leq | geq | eq | neq
deriving DecidableEq, Repr

def UnaryOp.mnemonic : UnaryOp → String
  | neg => "neg" | inc => "inc" | dec => "dec"

def BinaryOp.mnemonic : BinaryOp → String
  | add => "add" | sub => "sub" | mul => "mul" | div => "div"
  | le => "le" | gr => "gr" | leq => "leq" | geq => "geq" | eq => "eq" | neq => "neq"

inductive Instr where
  /-- Pushes a constant. -/
  | loadc (value : Cell)
  /-- Pushes an address relative to the frame. -/
  | loadrc (offset : Cell)
  /-- Replaces an address by the word at it. -/
  | load
  /-- Stores the word below the address at the address, and pops the address. -/
  | store
  | pop
  | dup
  | swap
  | unary (op : UnaryOp)
  | binary (op : BinaryOp)
  | label (name : Cell)
  | jump (target : Cell)
  /-- Pops a word, and jumps if it is zero. -/
  | jumpz (target : Cell)
  /-- Sets the frame pointer to the top of the stack. -/
  | enter
  /-- Makes room on the stack. -/
  | alloc (size : Cell)
  /-- Leaves the frame. -/
  | ret
  /-- Saves the frame pointer. -/
  | mark
  | call
  /-- Drops `discard` bytes below the top word. -/
  | slide (discard : Cell)

/-- An instruction, or a block of them that stands for its instructions in order. -/
inductive Item where
  | instr (i : Instr)
  | block (items : List Item)

def plain? : String → Option Instr
  | "load" => some .load | "store" => some .store | "pop" => some .pop | "dup" => some .dup
  | "swap" => some .swap | "enter" => some .enter | "ret" => some .ret | "mark" => some .mark
  | "call" => some .call
  | "neg" => some (.unary .neg) | "inc" => some (.unary .inc) | "dec" => some (.unary .dec)
  | "add" => some (.binary .add) | "sub" => some (.binary .sub)
  | "mul" => some (.binary .mul) | "div" => some (.binary .div)
  | "le" => some (.binary .le) | "gr" => some (.binary .gr)
  | "leq" => some (.binary .leq) | "geq" => some (.binary .geq)
  | "eq" => some (.binary .eq) | "neq" => some (.binary .neq)
  | _ => none

def withOperand? (mnemonic : String) (operand : Cell) : Option Instr :=
  match mnemonic with
  | "loadc" => some (.loadc operand)
  | "loadrc" => some (.loadrc operand)
  | "label" => some (.label operand)
  | "jump" => some (.jump operand)
  | "jumpz" => some (.jumpz operand)
  | "alloc" => some (.alloc operand)
  | _ => none

namespace Instr

def parts : Instr → String × List Cell
  | loadc v => ("loadc", [v])
  | loadrc v => ("loadrc", [v])
  | load => ("load", [])
  | store => ("store", [])
  | pop => ("pop", [])
  | dup => ("dup", [])
  | swap => ("swap", [])
  | unary op => (op.mnemonic, [])
  | binary op => (op.mnemonic, [])
  | label name => ("label", [name])
  | jump l => ("jump", [l])
  | jumpz l => ("jumpz", [l])
  | enter => ("enter", [])
  | alloc n => ("alloc", [n])
  | ret => ("ret", [])
  | mark => ("mark", [])
  | call => ("call", [])
  | slide n => ("slide", [n, .int 8])

def cell (i : Instr) : Cell := .tuple (.text i.parts.1 :: i.parts.2)

/-- The instruction that a cell writes.  The last operand of `slide` is the number of bytes that
    stay, which must be eight. -/
def ofCell? : Cell → Option Instr
  | .tuple [.text m] => plain? m
  | .tuple [.text m, operand] => withOperand? m operand
  | .tuple [.text "slide", discard, .int 8] => some (.slide discard)
  | _ => none

end Instr

mutual

def Item.cell : Item → Cell
  | .instr i => i.cell
  | .block items => .block (Item.cells items)

def Item.cells : List Item → List Cell
  | [] => []
  | i :: is => i.cell :: Item.cells is

end

mutual

def Item.flat : Item → List Instr
  | .instr i => [i]
  | .block items => Item.flatList items

def Item.flatList : List Item → List Instr
  | [] => []
  | i :: is => i.flat ++ Item.flatList is

end

theorem Instr.ofCell?_cell (i : Instr) : Instr.ofCell? i.cell = some i := by
  cases i with
  | unary op => cases op <;> rfl
  | binary op => cases op <;> rfl
  | _ => rfl

end ExprLang.CMa
