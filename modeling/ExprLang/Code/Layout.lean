/-
  The layout of assembly text.

  Every line has a column for the label, one for the mnemonic and one for each operand, all eight
  wide, and a comment from column 40 on.  A line that starts with three semicolons is indented by
  four and otherwise left alone.

  * `layoutLine` lays out one line, `layout` all lines of a text.
-/
import ExprLang.Text.Blank

namespace ExprLang

def columnWidth : Nat := 8

def column (cs : List Char) : List Char := Text.padRight columnWidth cs

def labelColumn (line : List Char) : List Char × List Char :=
  match Text.cut? ':' line with
  | some (label, rest) => (column (label ++ [':', ' ']), rest)
  | none => (column [], line)

def splitComment (line : List Char) : List Char × Option (List Char) :=
  match Text.cut? ';' (Text.trim line) with
  | some (code, comment) => (code, some comment)
  | none => (line, none)

def operandColumns : List (List Char) → List Char
  | [] => []
  | [last] => column (Text.trim last)
  | operand :: operands => column (Text.trim operand ++ [',']) ++ operandColumns operands

/-- The mnemonic and the operand columns of an instruction. -/
def codeColumns (code : List Char) : List Char :=
  let code := Text.trim code
  let mnemonic := code.takeWhile (!Text.isBlank ·)
  match code.dropWhile (!Text.isBlank ·) with
  | [] => column mnemonic
  | rest => column mnemonic ++ operandColumns (Text.splitAt ',' (Text.trim rest))

def layoutLine (line : List Char) : List Char :=
  let (label, rest) := labelColumn (Text.trim line)
  if [';', ';', ';'].isPrefixOf rest then List.replicate 4 ' ' ++ rest
  else
    let (code, comment) := splitComment rest
    let columns := label ++ codeColumns code
    match comment with
    | none | some [] => columns
    | some comment => Text.padRight 40 columns ++ ';' :: comment

def layoutLines (lines : List (List Char)) : List Char :=
  lines.flatMap fun line => layoutLine line ++ ['\n']

def layout (text : String) : String :=
  String.ofList (layoutLines (Text.lines text.toList))

end ExprLang
