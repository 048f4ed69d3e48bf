/-
  The instructions of the MaMa, a stack machine for functional programs.

  Values are references to objects on a heap: basic values, functions and vectors of captured
  variables.

  * `Instr` is the instruction set;
  * `Instr.cell` writes an instruction as a cell, and `Instr.ofCell?` reads it back.
-/
import ExprLang.CMa.Instr

namespace ExprLang.MaMa

open CMa (UnaryOp BinaryOp)

inductive Instr where
  /-- Pushes a constant. -/
  | loadc (value : Cell)
  | pop
  | dup
  | swap
  | unary (op : UnaryOp)
  | binary (op : BinaryOp)
  | label (name : Cell)
  | jump (target : Cell)
  /-- Pops a word, and jumps if it is zero. -/
  | jumpz (target : Cell)
  /-- Replaces a word by a reference to a basic value. -/
  | mkbasic
  /-- Replaces a reference to a basic value by its word. -/
  | getbasic
  /-- Drops `discard` words below the top one. -/
  | slide (discard : Cell)
  /-- Pushes the word `offset` places below the top. -/
  | pushloc (offset : Cell)
  /-- Pushes a captured variable. -/
  | pushglob (index : Cell)
  /-- Replaces `size` references by a vector of them. -/
  | mkvec (size : Cell)
  /-- Replaces a vector by a function with the given code. -/
  | mkfunval (code : Cell)
  /-- Leaves a function. -/
  | popenv
  /-- Starts a call that will return to `target`. -/
  | mark (target : Cell)
  /-- Calls the function on top. -/
  | apply
  /-- Pushes `count` references to fresh objects. -/
  | alloc (count : Cell)
  /-- Pops a reference and copies its object over the one `depth` places below the top. -/
  | patch (depth : Cell)

def plain? : String → Option Instr
  | "pop" => some .pop | "dup" => some .dup | "swap" => some .swap
  | "mkbasic" => some .mkbasic | "getbasic" => some .getbasic
  | "popenv" => some .popenv | "apply" => some .apply
  | "neg" => some (.unary .neg) | "inc" => some (.unary .inc) | "dec" => some (.unary .dec)
  | "add" => some (.binary .add) | "sub" => some (.binary .sub)
  | "mul" => some (.binary .mul) | "div" => some (.binary .div)
  | "le" => some (.binary .le) | "gr" => some (.binary .gr)
  | "leq" => some (.binary .leq) | "geq" => some (.binary .geq)
  | "eq" => some (.binary .eq) | "neq" => some (.binary .neq)
  | _ => none

def withOperand? (mnemonic : String) (operand : Cell) : Option Instr :=
  match mnemonic with
  | "loadc" => some (.loadc operand)
  | "label" => some (.label operand)
  | "jump" => some (.jump operand)
  | "jumpz" => some (.jumpz operand)
  | "slide" => some (.slide operand)
  | "pushloc" => some (.pushloc operand)
  | "pushglob" => some (.pushglob operand)
  | "mkvec" => some (.mkvec operand)
  | "mkfunval" => some (.mkfunval operand)
  | "mark" => some (.mark operand)
  | "alloc" => some (.alloc operand)
  | "rewrite" => some (.patch operand)
  | _ => none

namespace Instr

def parts : Instr → String × List Cell
  | loadc v => ("loadc", [v])
  | pop => ("pop", [])
  | dup => ("dup", [])
  | swap => ("swap", [])
  | unary op => (op.mnemonic, [])
  | binary op => (op.mnemonic, [])
  | label name => ("label", [name])
  | jump l => ("jump", [l])
  | jumpz l => ("jumpz", [l])
  | mkbasic => ("mkbasic", [])
  | getbasic => ("getbasic", [])
  | slide n => ("slide", [n])
  | pushloc n => ("pushloc", [n])
  | pushglob n => ("pushglob", [n])
  | mkvec n => ("mkvec", [n])
  | mkfunval l => ("mkfunval", [l])
  | popenv => ("popenv", [])
  | mark l => ("mark", [l])
  | apply => ("apply", [])
  | alloc n => ("alloc", [n])
  | patch n => ("rewrite", [n])

def cell (i : Instr) : Cell := .tuple (.text i.parts.1 :: i.parts.2)

def ofCell? : Cell → Option Instr
  | .tuple [.text m] => plain? m
  | .tuple [.text m, operand] => withOperand? m operand
  | _ => none

theorem ofCell?_cell (i : Instr) : ofCell? i.cell = some i := by
  cases i with
  | unary op => cases op <;> rfl
  | binary op => cases op <;> rfl
  | _ => rfl

end Instr

end ExprLang.MaMa
