/-
  The text of arrays.

  The items of an array are brought to one form (`floatWords`, `intWords`, `boolWords`): as many
  places as the item with the most, but at most eight, or an exponent if the items differ too much
  in size.  Then they are laid out in rows that are wrapped at a line width (`rows`); of a large
  array only the first and last three parts of each dimension are shown.
-/
import ExprLang.Value.Grid
import ExprLang.Text.Quoted

namespace ExprLang.ArrayText

open Decimal

/-- The number of places after the point at most. -/
def precision : Nat := 8

def lineWidth : Nat := 75

/-- Arrays with more items are not shown in full. -/
def threshold : Nat := 1000

/-- How many parts at each end of a dimension are shown of a large array. -/
def edge : Nat := 3

/-! ## Items -/

/-- A list of digits without zeros at the end. -/
def trimZeros (cs : List Char) : List Char := (cs.reverse.dropWhile (· == '0')).reverse

/-- The digits of a number before and after the point, with at most `precision` places. -/
def places (y : Binary) : List Char × List Char :=
  let s := shortest y
  let (whole, fraction) :=
    if s.exponent < -(precision : Int) then
      let (n, d) := y.ratio
      positional ⟨roundHalfEven (n * Nat.pow 10 precision) d, -(precision : Int)⟩
    else positional s
  (if y.negative then '-' :: whole else whole, trimZeros fraction)

/-- The first digit, the further digits and the exponent of a number. -/
def scientific (y : Binary) : List Char × List Char × Int :=
  let sign (cs : List Char) : List Char := if y.negative then '-' :: cs else cs
  let s := shortest y
  if s.digits = 0 then (sign ['0'], [], 0)
  else
    let (digits, e) :=
      if digitCount s.digits > precision + 1 then
        let (n, d) := y.ratio
        significant (precision + 1) n d
      else (s.digits, s.magnitude)
    match digitsOf digits with
    | d :: ds => (sign [d], trimZeros ds, e)
    | [] => (sign ['0'], [], e)

/-- The greatest of some lengths. -/
def widest (texts : List (List Char)) : Nat := (texts.map List.length).foldl max 0

/-- The items need exponents: one is very large or very small, or they differ widely. -/
def needsExponent (xs : List Float) : Bool :=
  match (xs.filter (· != 0)).map Float.abs with
  | [] => false
  | x :: rest =>
    let most := rest.foldl (fun a b => if a < b then b else a) x
    let least := rest.foldl (fun a b => if b < a then b else a) x
    most ≥ floatOfDecimal 1 8 || least < floatOfDecimal 1 (-4) ||
      most / least > floatOfDecimal 1 3

def floatWords (xs : List Float) : List (List Char) :=
  let finite := xs.filterMap Binary.ofFloat?
  let special (left right : Nat) (x : Float) : List Char :=
    Text.padLeft (left + right + 1) (specialText x).toList
  -- the room before the point that is left to items that are not finite
  let leftFor (left right : Nat) : Nat :=
    if finite.length = xs.length then left
    else
      let infinity := if xs.any fun x => x.isInf && x < 0 then 4 else 3
      max left (max (3 - (right + 1)) (infinity - (right + 1)))
  if needsExponent (xs.filter fun x => x.isFinite) then
    let parts := finite.map scientific
    let fraction := widest (parts.map (·.2.1))
    let exponent := max 2 (widest (parts.map fun p => digitsOf p.2.2.natAbs))
    let right := exponent + 2 + fraction
    let left := leftFor (widest (parts.map (·.1))) right
    xs.map fun x =>
      match Binary.ofFloat? x with
      | none => special left right x
      | some y =>
        let (whole, digits, e) := scientific y
        Text.padLeft left whole ++ '.' :: digits ++ List.replicate (fraction - digits.length) '0' ++
          'e' :: exponentText exponent e
  else
    let parts := finite.map places
    let right := widest (parts.map (·.2))
    let left := leftFor (widest (parts.map (·.1))) right
    xs.map fun x =>
      match Binary.ofFloat? x with
      | none => special left right x
      | some y =>
        let (whole, digits) := places y
        Text.padLeft left whole ++ '.' :: Text.padRight right digits

/-- The texts of some integers, all of one length. -/
def intWords (is : List Int) : List (List Char) :=
  let texts := is.map fun i => (toString i).toList
  texts.map (Text.padLeft (widest texts))

/-- The texts of some truth values, all of one length. -/
def boolWords (bs : List Bool) : List (List Char) :=
  bs.map fun b => (if b then " True" else "False").toList

/-- The texts of the items of an array; `others` are those of items of any sort. -/
def words (kind : ItemKind) (items : List Value) (others : List (List Char)) : List (List Char) :=
  match kind with
  | .float => floatWords (items.map fun v => match v with
      | .float x => x
      | _ => 0.0 / 0.0)
  | .int => intWords (items.map fun v => match v with
      | .int i => i
      | _ => 0)
  | .word => intWords (items.map fun v => match v with
      | .word w => w.toNat
      | _ => 0)
  | .bool => boolWords (items.map fun v => match v with
      | .bool b => b
      | _ => false)
  | .text _ => items.map fun v => (Text.quoted v.numeral).toList
  | .object => others

/-! ## Rows -/

/-- What is written so far: the finished lines, and the line in work. -/
structure Page where
  done : List Char
  line : List Char

def Page.newline (p : Page) (line : List Char) : Page :=
  ⟨p.done ++ Text.trimRight p.line ++ ['\n'], line⟩

/-- Adds a word, on a new line if it does not fit. -/
def Page.extend (p : Page) (word : List Char) (width indent : Nat) : Page :=
  let p := if p.line.length + word.length > width ∧ p.line.length > indent
    then p.newline (List.replicate indent ' ') else p
  { p with line := p.line ++ word }

def Page.extendLines (p : Page) (word : List Char) (width indent : Nat) : Page :=
  match Text.lines word with
  | [] | [_] => p.extend word width indent
  | first :: rest =>
    let most := widest (first :: rest)
    let fresh := p.line.length + most > width ∧ p.line.length > indent
    let margin := if fresh then indent else p.line.length
    let p := if fresh then p.newline (List.replicate indent ' ') else p
    let p : Page := { p with line := p.line ++ first }
    let p := rest.foldl (fun p w => p.newline (List.replicate margin ' ' ++ w)) p
    { p with line := p.line ++ List.replicate (most - (rest.getLastD first).length) ' ' }

def chunks {α : Type} (size : Nat) : Nat → List α → List (List α)
  | 0, _ => []
  | n + 1, xs => xs.take size :: chunks size n (xs.drop size)

/-- The first and last parts of a list, if there are too many. -/
def edges {α : Type} (cut : Bool) (xs : List α) : List α × Option (List α) :=
  if cut ∧ 2 * edge < xs.length then (xs.take edge, some (xs.drop (xs.length - edge)))
  else (xs, none)

/-- Adds words with separators after all but the last. -/
def Page.extendAll (p : Page) (sep : List Char) (width indent : Nat) :
    List (List Char) → Page
  | [] => p
  | [w] => p.extendLines w width indent
  | w :: ws =>
    let p := p.extendLines w width indent
    Page.extendAll { p with line := p.line ++ sep } sep width indent ws

/-- The rows of an array in brackets.  The first line is not indented. -/
def rows (cut : Bool) (sep : List Char) : List Nat → List (List Char) → Nat → Nat → List Char
  | [], ws, _, _ => ws.headD []
  | [_], ws, indent, width =>
    let width := width - max (Text.trimRight sep).length 1
    let start : Page := ⟨[], List.replicate indent ' '⟩
    let p := match edges cut ws with
      | (ws, none) => start.extendAll sep width indent ws
      | (first, some last) =>
        let p := first.foldl (fun p w =>
          let p := Page.extendLines p w width indent
          { p with line := p.line ++ sep }) start
        let p := p.extend ['.', '.', '.'] width indent
        Page.extendAll { p with line := p.line ++ sep } sep width indent last
    '[' :: (p.done ++ p.line).drop indent ++ [']']
  | n :: shape, ws, indent, width =>
    let nested := (chunks (sizeOfShape shape) n ws).map fun part =>
      rows cut sep shape part (indent + 1) (width - 1)
    let gap := Text.trimRight sep ++ List.replicate shape.length '\n' ++ List.replicate indent ' '
    let shown := match edges cut nested with
      | (parts, none) => parts
      | (first, some last) => first ++ ['.', '.', '.'] :: last
    '[' :: List.intercalate gap shown ++ [']']

/-- The items of a large array that are shown. -/
def kept {α : Type} : List Nat → List α → List α
  | [], xs => xs
  | n :: shape, xs =>
    let parts := chunks (sizeOfShape shape) n xs
    let parts := match edges true parts with
      | (first, none) => first
      | (first, some last) => first ++ last
    (parts.map (kept shape)).flatten

def shown {α : Type} (shape : List Nat) (xs : List α) : List α :=
  if sizeOfShape shape ≤ threshold then xs else kept shape xs

/-- The words of all items in the form that fits those shown. -/
def allWords (kind : ItemKind) (shape : List Nat) (items : List Value)
    (others : List (List Char)) : List (List Char) :=
  if sizeOfShape shape ≤ threshold then words kind items others
  else
    -- the form is that of the items shown, so the words of the others do not matter
    let shown := kept shape ((List.range items.length).zip items)
    let texts := (shown.map (·.1)).zip
      (words kind (shown.map (·.2)) (kept shape others))
    (List.range items.length).map fun i => (texts.lookup i).getD []

/-- The text of an array with a separator; `indent` is the room that stands before it. -/
def text (sep : String) (indent width : Nat) (kind : ItemKind) (shape : List Nat)
    (items : List Value) (others : List (List Char)) : List Char :=
  if sizeOfShape shape = 0 then ['[', ']']
  else
    rows (sizeOfShape shape > threshold) sep.toList shape (allWords kind shape items others)
      (indent + 1) width

/-- The text of an array that stands alone. -/
def alone (kind : ItemKind) (shape : List Nat) (items : List Value)
    (others : List (List Char)) : String :=
  String.ofList (text " " 0 lineWidth kind shape items others)

def kindName : ItemKind → String
  | .bool => "bool"
  | .int => "int64"
  | .word => "uint64"
  | .float => "float64"
  | .text w => s!"'<U{w}'"
  | .object => "object"

def isTelling : ItemKind → Bool
  | .bool | .int | .float => true
  | _ => false

/-- The text of an array among others: it says of which kind the items are if they do not. -/
def inner (kind : ItemKind) (shape : List Nat) (items : List Value)
    (others : List (List Char)) : String :=
  let empty := sizeOfShape shape = 0
  let body := String.ofList (text ", " 6 (lineWidth - 1) kind shape items others)
  let body := if empty ∧ shape ≠ [0] then "[], shape=" ++ shapeText shape else body
  if isTelling kind ∧ ¬ empty then "array(" ++ body ++ ")"
  else
    let start := "array(" ++ body ++ ","
    let kindText := "dtype=" ++ kindName kind ++ ")"
    let last := (start.toList.reverse.takeWhile (· != '\n')).length
    let gap := if last + kindText.length + 1 > lineWidth then "\n      " else " "
    start ++ gap ++ kindText

end ExprLang.ArrayText
