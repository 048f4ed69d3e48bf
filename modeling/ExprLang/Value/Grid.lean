/-
  Arrays of any shape.

  * `Grid.ofValues` builds an array from values: parts of equal shape add dimensions, and all items
    become of one kind, the least that takes them all.  An `ArrayLibrary` does this for programs;
  * `broadcastShape?` and `Grid.spread` bring two arrays to a common shape;
  * `Grid.at?` takes one part out of an array.
-/
import ExprLang.Value.Number

namespace ExprLang

/-- An array: its kind of items, its shape, and its items row by row. -/
structure Grid where
  kind : ItemKind
  shape : List Nat
  items : List Value

def sizeOfShape (shape : List Nat) : Nat := shape.foldl (· * ·) 1

namespace ItemKind

/-- How many characters an item of a kind takes as text. -/
def textWidth : ItemKind → Nat
  | bool => 5
  | int => 21
  | word => 20
  | float => 32
  | text w => w
  | object => 0

def isNumeric : ItemKind → Bool
  | bool | int | word | float => true
  | _ => false

def isWhole : ItemKind → Bool
  | bool | int | word => true
  | _ => false

/-- The least kind that takes the items of two kinds; no kind of integer takes those with a sign and
    those without. -/
def join : ItemKind → ItemKind → ItemKind
  | object, _ | _, object => object
  | text v, k => text (max v k.textWidth)
  | k, text w => text (max k.textWidth w)
  | float, _ | _, float => float
  | int, word | word, int => float
  | int, _ | _, int => int
  | word, _ | _, word => word
  | bool, bool => bool

/-- The kind of a single integer: it has a sign if 64 bits are enough for that. -/
def ofInt (i : Int) : ItemKind :=
  if -(Nat.pow 2 63 : Int) ≤ i ∧ i < (Nat.pow 2 63 : Int) then int
  else if 0 ≤ i ∧ i < (Nat.pow 2 64 : Int) then word
  else object

def ofValue : Value → ItemKind
  | .bool _ | .scalar _ (.bool _) => bool
  | .int i | .scalar _ (.int i) => ofInt i
  | .word _ | .scalar _ (.word _) => word
  | .float _ | .nan _ | .scalar _ (.float _) | .scalar _ (.nan _) => float
  | .text s | .scalar _ (.text s) => text (max 1 s.length)
  | _ => object

def name : ItemKind → String
  | bool => "dtype('bool')"
  | int => "dtype('int64')"
  | word => "dtype('uint64')"
  | float => "dtype('float64')"
  | text w => s!"dtype('<U{w}')"
  | object => "dtype('O')"

end ItemKind

/-- A text without the null characters at its end, which arrays do not keep. -/
def trimNulls (s : String) : String :=
  if s.endsWith "\x00" then String.ofList (s.toList.reverse.dropWhile (· == '\x00')).reverse else s

/-- The text of a plain boolean or number. -/
def Value.numeral : Value → String
  | .bool b => if b then "True" else "False"
  | .int i => toString i
  | .word w => toString w.toNat
  | .float x => Decimal.floatText x
  | .nan _ => "nan"
  | .text s => s
  | _ => ""

def ItemKind.cast (k : ItemKind) (v : Value) : Value :=
  match k with
  | object => v
  | _ =>
    let v := match v with | .scalar _ i => i | v => v
    match k, v with
    | int, .bool b => .int (if b then 1 else 0)
    | word, .bool b => .word (if b then 1 else 0)
    | word, .int i => .word (UInt64.ofInt i)
    | float, .bool b => .float (if b then 1.0 else 0.0)
    | float, .int i => .float (Decimal.floatOfInt i)
    | float, .word w => .float (Decimal.floatOfInt w.toNat)
    | text _, .text s => .text (trimNulls s)
    | text _, v => .text v.numeral
    | _, v => v

/-! ## Building arrays -/

/-- The shape of an array as far as it is known while its parts are visited. -/
structure Outline where
  /-- How many dimensions there can be. -/
  dims : Nat
  shape : List Nat
  /-- A part without further dimensions was met. -/
  settled : Bool
  ragged : Bool

namespace Outline

def start : Outline := ⟨64, [], false, false⟩

/-- Compares the sizes at depth `depth` on with the known ones, and gives the number of those that
    agree. -/
def agreeing (o : Outline) (depth : Nat) (sizes : List Nat) : Nat :=
  ((o.shape.drop depth).zip sizes |>.takeWhile fun (a, b) => a == b).length

/-- Meets a part at a depth with given sizes, and says whether it fits; `sequence` if further parts
    may lie in it. -/
def meet (o : Outline) (depth : Nat) (sizes : List Nat) (sequence : Bool) : Outline × Bool :=
  let tooMany := depth + sizes.length > o.dims
  let used := if tooMany then sizes.take (o.dims - depth) else sizes
  let shrinks := !tooMany && !sequence && o.dims != depth + sizes.length
  let dims := if shrinks then depth + sizes.length else o.dims
  let agree := if o.settled then o.agreeing depth used else used.length
  let fits := !tooMany && !(shrinks && o.settled) && agree == used.length
  ({ dims := if agree == used.length then dims else if sequence then depth
        else dims - (used.length - agree)
     shape := if o.settled then o.shape else o.shape.take depth ++ used
     settled := o.settled || !sequence
     ragged := o.ragged || !fits }, fits)

mutual

def visit (o : Outline) (depth : Nat) : Value → Outline
  | .array _ _ shape _ => (o.meet depth shape false).1
  | .tuple items =>
    if depth = o.dims then { (o.meet depth [] false).1 with ragged := true }
    else
      match o.meet depth [items.length] true with
      | (met, false) => met
      | (met, true) =>
        if items.isEmpty then { met with dims := depth + 1, settled := true }
        else met.visitAll (depth + 1) items
  | _ => (o.meet depth [] false).1

def visitAll (o : Outline) (depth : Nat) : List Value → Outline
  | [] => o
  | v :: vs => (o.visit depth v).visitAll depth vs

end

end Outline

def ItemKind.after (met : Option ItemKind) (k : ItemKind) : ItemKind :=
  match met with
  | some j => j.join k
  | none => k

mutual

/-- The kind of the items met so far and of those in a part of an array, in their order. -/
def kindAfter (met : Option ItemKind) : Value → Option ItemKind
  | .array _ k _ _ => some (.after met k)
  | .tuple items => kindAfterAll met items
  | v => some (.after met (.ofValue v))

def kindAfterAll (met : Option ItemKind) : List Value → Option ItemKind
  | [] => met
  | v :: vs => kindAfterAll (kindAfter met v) vs

end

mutual

def itemsWithin : Value → List Value
  | .array _ _ _ items => items
  | .tuple items => itemsWithinAll items
  | v => [v]

def itemsWithinAll : List Value → List Value
  | [] => []
  | v :: vs => itemsWithin v ++ itemsWithinAll vs

end

namespace Grid

def ofValues (values : List Value) : Except Fault Grid :=
  let o := Outline.start.visit 0 (.tuple values)
  let shape := o.shape.take o.dims
  if o.ragged then throw (.ragged shape)
  else
    let kind := (kindAfterAll none values).getD .float
    return ⟨kind, shape, (itemsWithinAll values).map kind.cast⟩

/-- A value as an array; a single value has no dimensions. -/
def ofValue : Value → Except Fault Grid
  | .array _ kind shape items => return ⟨kind, shape, items⟩
  | .tuple items => ofValues items
  | .scalar _ item => return ⟨.ofValue item, [], [item]⟩
  | v => return ⟨.ofValue v, [], [v]⟩

/-- An array as a value: without dimensions it is a scalar, or the item itself. -/
def toValue (g : Grid) : Value :=
  match g.shape, g.items with
  | [], [item] => if g.kind = .object then item else .scalar 0 item
  | _, _ => .array 0 g.kind g.shape g.items

def cast (g : Grid) (k : ItemKind) : Grid :=
  if g.kind = k then g else { g with kind := k, items := g.items.map k.cast }

/-- The part at an index of the first dimension; a negative index counts from the end. -/
def at? (g : Grid) (index : Int) : Option Value :=
  match g.shape with
  | [] => none
  | n :: rest =>
    let i := if index < 0 then index + n else index
    if i < 0 ∨ i ≥ n then none
    else
      let size := sizeOfShape rest
      some (toValue ⟨g.kind, rest, (g.items.drop (i.toNat * size)).take size⟩)

end Grid

/-- What makes the arrays of programs. -/
class ArrayLibrary where
  /-- The array of some values. -/
  array : List Value → Except Fault Grid

instance ArrayLibrary.standard : ArrayLibrary := ⟨Grid.ofValues⟩

/-! ## Common shapes -/

/-- The common shape of two, their last dimensions first: a dimension of size one fits any. -/
def broadcastReversed? : List Nat → List Nat → Option (List Nat)
  | [], t => some t
  | s, [] => some s
  | m :: s, n :: t =>
    let size? := if m = n then some m else if m = 1 then some n else if n = 1 then some m else none
    match size?, broadcastReversed? s t with
    | some k, some rest => some (k :: rest)
    | _, _ => none

def broadcastShape? (s t : List Nat) : Option (List Nat) :=
  (broadcastReversed? s.reverse t.reverse).map List.reverse

/-- Items of a shape, repeated to fill a wider one with as many dimensions. -/
def spreadItems (items : List Value) : List Nat → List Nat → List Value
  | n :: shape, m :: wide =>
    let size := sizeOfShape shape
    let row (i : Nat) : List Value := spreadItems ((items.drop (i * size)).take size) shape wide
    if n = m then (List.range n).flatMap row
    else
      let first := row 0
      (List.range m).flatMap fun _ => first
  | _, _ => items

/-- The items of an array, repeated to fill a common shape. -/
def Grid.spread (g : Grid) (shape : List Nat) : List Value :=
  spreadItems g.items (List.replicate (shape.length - g.shape.length) 1 ++ g.shape) shape

def Grid.zipWith (kind : ItemKind) (f : Value → Value → Except Fault Value) (a b : Grid) :
    Except Fault Grid :=
  match broadcastShape? a.shape b.shape with
  | none => throw (.shapes a.shape b.shape)
  | some shape => do
    let items ← ((a.spread shape).zip (b.spread shape)).mapM fun (x, y) => f x y
    return ⟨kind, shape, items⟩

end ExprLang
