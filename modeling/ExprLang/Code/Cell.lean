/-
  The cells that instructions are made of.

  An instruction is a tuple: its mnemonic and its operands.  Operands are numbers, texts and now
  and then tuples of their own; a block is a list of instructions that stands where an instruction
  could stand.
-/
import ExprLang.Text.Quoted

namespace ExprLang

/-- A part of an instruction. -/
inductive Cell where
  | null
  | bool (b : Bool)
  | int (i : Int)
  | text (s : String)
  | tuple (cs : List Cell)
  | block (cs : List Cell)
deriving Repr, Inhabited

namespace Cell

mutual

/-- A cell as it stands inside another one: texts are quoted. -/
def inner : Cell → String
  | null => "None"
  | bool b => if b then "True" else "False"
  | int i => toString i
  | text s => Text.quoted s
  | tuple [c] => s!"({c.inner},)"
  | tuple cs => "(" ++ ", ".intercalate (inners cs) ++ ")"
  | block cs => "[" ++ ", ".intercalate (inners cs) ++ "]"

def inners : List Cell → List String
  | [] => []
  | c :: cs => c.inner :: inners cs

end

/-- A cell on its own: a text stands for itself. -/
def alone : Cell → String
  | text s => s
  | c => c.inner

/-- The number that a cell counts for; truth values count as one and zero. -/
def int? : Cell → Option Int
  | int i => some i
  | bool b => some (if b then 1 else 0)
  | _ => none

def parts? : Cell → Option (List Cell)
  | tuple cs | block cs => some cs
  | _ => none

end Cell

end ExprLang
