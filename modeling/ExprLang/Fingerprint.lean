/-
  Fingerprints of data.

  The fingerprint of a datum is the hash of its stream of bytes.  A stream forgets what should not
  tell two results apart: whether a sequence is a list or a tuple, the order of dictionaries and
  sets, and all but six significant digits of a floating-point number.  Data that hold a whole
  number with too many digits to be written have no stream.

  * `Beyond` says what is fed for data that lie beyond the bounds;
  * `Datum.stream` is the stream, `Datum.fingerprint` its hash.
-/
import ExprLang.Fingerprint.Written

namespace ExprLang

open Sha256 (Bytes)

namespace Fingerprint

/-- The deepest level that is looked at. -/
def deepest : Nat := 8

/-- The number of members of a sequence that are looked at. -/
def longest : Nat := 2000

/-- The most digits that a whole number is written with. -/
def mostDigits : Nat := 4300

def textBytes (s : String) : Bytes := s.toUTF8.toList

def mark (name : String) (count : Nat) : Bytes := textBytes (name ++ toString count)

/-- The text of a number up to six significant digits.  Zero has no sign. -/
def roundedText (x : Float) : String :=
  if x == 0 then "0.0" else Decimal.floatText (Decimal.roundSignificant 6 x)

/-- The text of a number taken out of an array. -/
def roundedItemText (x : Float) : String :=
  if x == 0 then "0.0" else "np.float64(" ++ roundedText x ++ ")"

/-! ## Arrays -/

/-- The code of a kind of number: the order of its bytes, a letter, and its width. -/
def kindCode : NumberKind → String
  | .float width => "<f" ++ toString width
  | .int width => (if width = 1 then "|i" else "<i") ++ toString width
  | .natural width => (if width = 1 then "|u" else "<u") ++ toString width
  | .bool => "|b1"

def width : NumberKind → Nat
  | .float width | .int width | .natural width => width
  | .bool => 1

def shapeText : List Nat → String
  | [n] => "(" ++ toString n ++ ",)"
  | ns => "(" ++ String.intercalate ", " (ns.map toString) ++ ")"

/-- A whole number in `width` bytes, the lowest first. -/
def littleEndian (width : Nat) (i : Int) : Bytes :=
  (Sha256.bytesOf width (i.emod (Nat.pow 256 width)).toNat).reverse

def floatItemBytes (width : Nat) (i : ArrayItem) : Bytes :=
  let x := match i with
    | .float x => x
    | .whole i => Decimal.floatOfInt i
  textBytes (roundedText (if width = 4 then x.toFloat32.toFloat else x))

def wholeItemBytes (width : Nat) (i : ArrayItem) : Bytes :=
  littleEndian width <| match i with
    | .whole i => i
    | .float x => (Decimal.truncate? x).getD 0

/-- The stream of an array: its shape and kind, and then each floating-point number, or the hash
    of the memory of all whole ones. -/
def arrayStream (a : NumberArray) : Bytes :=
  textBytes ("A" ++ shapeText a.shape ++ kindCode a.kind) ++
    match a.kind with
    | .float width => a.items.flatMap (floatItemBytes width)
    | kind => Sha256.digest (a.items.flatMap (wholeItemBytes (width kind)))

/-! ## Data -/

/-- What is fed for data beyond the bounds. -/
class Beyond where
  /-- In place of a datum below the deepest level. -/
  deep : Bytes
  /-- For the members of a sequence with more of them than are looked at. -/
  members : List Bytes → Bytes
  /-- For a datum of a kind that has no form of its own. -/
  other : Datum → Bytes

instance Beyond.standard : Beyond where
  deep := textBytes "..."
  members streams := (streams.take longest).flatten
  other
    | .intItem i => arrayStream ⟨.int 8, [], [.whole i]⟩
    | d => textBytes d.kindName

/-- All of some results, if there is none missing. -/
def allOf {α : Type} : List (Option α) → Option (List α)
  | [] => some []
  | x :: xs => do return (← x) :: (← allOf xs)

def inOrder (entries : List (String × Bytes)) : List (String × Bytes) :=
  entries.mergeSort fun a b => decide (a.1 ≤ b.1)

def entryStream (key value : Option Bytes) : Option (String × Bytes) := do
  let key ← key
  return (Sha256.hexDigest key, key ++ (← value))

def memberPrint (member : Option Bytes) : Option (String × Bytes) := do
  let print := Sha256.hexDigest (← member)
  return (print, textBytes print)

/-- The stream of what has no order: a mark, and the parts in the order of their fingerprints. -/
def unorderedStream (name : String) (parts : List (Option (String × Bytes))) : Option Bytes := do
  return mark name parts.length ++ ((inOrder (← allOf parts)).map (·.2)).flatten

def wholeStream (i : Int) : Option Bytes :=
  if (Nat.toDigits 10 i.natAbs).length ≤ mostDigits then some (textBytes (toString i)) else none

section

variable [Beyond]

def sequenceStream (members : List (Option Bytes)) : Option Bytes := do
  let members ← allOf members
  return mark "L" members.length ++
    if members.length ≤ longest then members.flatten else Beyond.members members

def fieldStream (level : Nat) (name : String) : Bytes :=
  if level > deepest then Beyond.deep else textBytes "s" ++ textBytes name

mutual

def stream (level : Nat) (d : Datum) : Option Bytes :=
  if level > deepest then some Beyond.deep else
  match d with
  | .null => some (textBytes "None")
  | .bool b => some (textBytes (if b then "True" else "False"))
  | .int i => wholeStream i
  | .float x => some (textBytes (roundedText x))
  | .floatItem x => some (textBytes (roundedItemText x))
  | .text s => some (textBytes "s" ++ textBytes s)
  | .bytes _ bs => some (textBytes "s" ++ bs)
  | .list items | .tuple items => sequenceStream (streams level items)
  | .set items | .frozenset items => unorderedStream "S" ((streams level items).map memberPrint)
  | .dict entries => unorderedStream "D" (entryStreams level entries)
  | .pair left right =>
    -- A record is looked at as the dictionary of its fields, which is one level deeper.
    if level + 1 > deepest then some Beyond.deep else
    unorderedStream "D"
      [entryStream (some (fieldStream (level + 2) "left")) (stream (level + 2) left),
       entryStream (some (fieldStream (level + 2) "right")) (stream (level + 2) right)]
  | .written _ form => some (textBytes form)
  | .array a => some (arrayStream a)
  | .intItem i => some (Beyond.other (.intItem i))
  | .complex re im => some (Beyond.other (.complex re im))
  | .range n => some (Beyond.other (.range n))
  | .intKind => some (Beyond.other .intKind)
  | .blank => some (Beyond.other .blank)
  | .ellipsis => some (Beyond.other .ellipsis)

def streams (level : Nat) : List Datum → List (Option Bytes)
  | [] => []
  | d :: ds => stream (level + 1) d :: streams level ds

def entryStreams (level : Nat) : List (Datum × Datum) → List (Option (String × Bytes))
  | [] => []
  | (k, v) :: rest =>
    entryStream (stream (level + 1) k) (stream (level + 1) v) :: entryStreams level rest

end

end

end Fingerprint

def Datum.stream [Fingerprint.Beyond] (d : Datum) : Option Bytes := Fingerprint.stream 0 d

def Datum.fingerprint [Fingerprint.Beyond] (d : Datum) : Option String :=
  d.stream.map Sha256.hexDigest

end ExprLang
