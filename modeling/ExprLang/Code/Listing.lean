/-
  The listing of intermediate code.

  A label stands at the margin with a colon; any other instruction is indented, with its operands
  from column 12 on.  What is no instruction repeats the line before it.
-/
import ExprLang.Code.Cell
import ExprLang.Text.Blank

namespace ExprLang

/-- Why a listing fails. -/
inductive ListingFault where
  /-- There is no line to repeat. -/
  | noLine
  /-- The mnemonic cannot be put in a column. -/
  | noColumn
deriving DecidableEq, Repr

/-- `text` filled up with blanks to `width` characters. -/
def padded (width : Nat) (text : String) : String :=
  String.ofList (Text.padRight width text.toList)

/-- A mnemonic in its column.  Truth values count as numbers here. -/
def mnemonicColumn : Cell → Except ListingFault String
  | .text s => return padded 8 s
  | .int i => return padded 8 (toString i)
  | .bool b => return padded 8 (if b then "1" else "0")
  | _ => throw .noColumn

/-- The line of an instruction; `none` if it is not one. -/
def listingLine? (c : Cell) : Except ListingFault (Option String) :=
  match c.parts? with
  | none | some [] => return none
  | some [.text "label", name] => return some (name.alone ++ ":")
  | some [mnemonic] => return some ("    " ++ mnemonic.alone)
  | some (mnemonic :: operands) => do
    let column ← mnemonicColumn mnemonic
    return some ("    " ++ column ++ ", ".intercalate (operands.map Cell.alone))

/-- The lines of some instructions, after a line `before`. -/
def listingLines (before : Option String) : List Cell → Except ListingFault (List String)
  | [] => return []
  | c :: cs => do
    match (← listingLine? c).or before with
    | none => throw .noLine
    | some line => return line :: (← listingLines (some line) cs)

def listing (code : List Cell) : Except ListingFault String :=
  return "\n".intercalate (← listingLines none code)

end ExprLang
