/-
  The text of a datum in a label.

  A text stands for itself, and all else is written as in a program.
-/
import ExprLang.Fingerprint.Datum

namespace ExprLang.Datum

def bytesText (bs : Sha256.Bytes) : String :=
  let chars := bs.map fun b => Char.ofNat b.toNat
  let quote := Text.quoteFor (String.ofList chars)
  let escape (c : Char) : List Char :=
    if c.toNat < 0x80 then Text.escape quote c else '\\' :: 'x' :: Text.hex 2 c.toNat
  "b" ++ String.ofList (quote :: chars.flatMap escape ++ [quote])

/-- Texts in a row between brackets. -/
def inBrackets (left right : String) (parts : List String) : String :=
  left ++ String.intercalate ", " parts ++ right

mutual

def form : Datum → String
  | .null => "None"
  | .bool b => if b then "True" else "False"
  | .int i => toString i
  | .float x => Decimal.floatText x
  | .floatItem x => "np.float64(" ++ Decimal.floatText x ++ ")"
  | .intItem i => "np.int64(" ++ toString i ++ ")"
  | .text s => Text.quoted s
  | .bytes .bytearray bs => "bytearray(" ++ bytesText bs ++ ")"
  | .bytes _ bs => bytesText bs
  | .list items => inBrackets "[" "]" (forms items)
  | .tuple [a] => "(" ++ form a ++ ",)"
  | .tuple items => inBrackets "(" ")" (forms items)
  | .set [] => "set()"
  | .set items => inBrackets "\x7b" "\x7d" (forms items)
  | .frozenset [] => "frozenset()"
  | .frozenset items => inBrackets "frozenset(\x7b" "\x7d)" (forms items)
  | .dict entries => inBrackets "\x7b" "\x7d" (entryForms entries)
  | .pair a b => "Pair(left=" ++ form a ++ ", right=" ++ form b ++ ")"
  | .written _ s => s
  | .range n => "range(0, " ++ toString n ++ ")"
  | .intKind => "<class 'int'>"
  | .ellipsis => "Ellipsis"
  | d@(.complex _ _) | d@(.array _) | d@.blank => d.kindName

def forms : List Datum → List String
  | [] => []
  | d :: ds => form d :: forms ds

def entryForms : List (Datum × Datum) → List String
  | [] => []
  | (k, v) :: rest => (form k ++ ": " ++ form v) :: entryForms rest

end

def shown : Datum → String
  | .text s => s
  | .floatItem x => Decimal.floatText x
  | .intItem i => toString i
  | d => form d

end ExprLang.Datum
