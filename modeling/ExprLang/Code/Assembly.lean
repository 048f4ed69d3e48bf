/-
  Assembly text.

  Each instruction becomes a few lines of assembly under a comment that shows the instruction; a
  label becomes just itself.  A cell that writes no instruction of the machine is refused.
-/
import ExprLang.Code.Cell
import ExprLang.Code.Layout

namespace ExprLang

/-- Why assembly text cannot be written. -/
inductive AsmFault where
  /-- The machine has no such instruction. -/
  | unknown (c : Cell)
  /-- The operand must be a number. -/
  | noNumber
deriving Repr

/-- `text` filled up with blanks to five characters, the width of a mnemonic in the templates. -/
def mnemonic5 (text : String) : String := String.ofList (Text.padRight 5 text.toList)

/-- The lines of a template: all but the first are indented by sixteen. -/
def templateLines (lines : List String) : String :=
  "\n                ".intercalate lines

/-- The text of an instruction under its comment, without blanks at its ends. -/
def commented (c : Cell) (body : String) : String :=
  ";;; " ++ c.inner ++ "\n" ++ String.ofList (Text.trim body.toList) ++ "\n"

def labelText (name : Cell) : String :=
  String.ofList (Text.trim (name.alone ++ ":").toList) ++ "\n"

/-- The condition code of a comparison, and the assembly mnemonics of the other operators. -/
def operatorMnemonic : String → String
  | "mul" => "imul" | "div" => "idiv"
  | "le" => "setl" | "gr" => "setg" | "leq" => "setle" | "geq" => "setge"
  | "eq" => "sete" | "neq" => "setne"
  | m => m

def sumText (op : String) : String :=
  templateLines ["pop   rcx", "pop   rax", s!"{mnemonic5 op} rax, rcx", "push  rax"]

/-- The text of a multiplication or division by the named instruction. -/
def productText (op : String) : String :=
  templateLines ["pop   rcx", "pop   rax", "cdq", s!"{mnemonic5 op} rcx", "push  rax"]

def comparisonText (op : String) : String :=
  templateLines ["pop   rcx", "pop   rax", "cmp   rax, rcx", s!"{mnemonic5 (operatorMnemonic op)} al",
    "movzx rax, al", "push rax"]

def unaryText (op : String) : String :=
  templateLines ["pop   rax", s!"{mnemonic5 op} rax", "push  rax"]

mutual

/-- The assembly text of a cell: a block is the text of its parts, and `one` gives the text of a
    single instruction. -/
def assembly (one : Cell → Except AsmFault String) : Cell → Except AsmFault String
  | .block cs => assemblyList one cs
  | c => one c

def assemblyList (one : Cell → Except AsmFault String) : List Cell → Except AsmFault String
  | [] => return ""
  | c :: cs => return (← assembly one c) ++ (← assemblyList one cs)

end

end ExprLang
