/-
  Truth and comparison of values.

  Numbers compare by value, texts by their characters, tuples item by item; dictionaries, closures
  and structs are only equal or not.  Comparing an array compares its items and gives an array, and
  comparing a scalar gives a scalar.
-/
import ExprLang.Value.Text

namespace ExprLang

def CompareOp.operation : CompareOp → String
  | lt => "less"
  | gt => "greater"
  | le => "less_equal"
  | ge => "greater_equal"
  | eq => "equal"
  | ne => "not_equal"

namespace Value

def text? : Value → Option String
  | .text s | .scalar _ (.text s) => some s
  | _ => Option.none

def isNumericScalar : Value → Bool
  | .scalar _ (.text _) => false
  | .scalar _ _ => true
  | _ => false

/-- The value is nothing or a text: a scalar number is never compared with it. -/
def isNullOrText : Value → Bool
  | .null | .text _ | .scalar _ (.text _) => true
  | _ => false

def isArray : Value → Bool
  | .array .. => true
  | _ => false

/-- The parts of the value are new values: it is an array, but not a row of items of any sort, which
    are kept as they are. -/
def hasNewParts : Value → Bool
  | .array _ .object [_] _ => false
  | v => v.isArray

/-- Whether a value counts as true.  An array of several items does not say. -/
def truth : Value → Except Fault Bool
  | .null => return false
  | .bool b | .scalar _ (.bool b) => return b
  | .int i | .scalar _ (.int i) => return i != 0
  | .word w | .scalar _ (.word w) => return w != 0
  | .float x | .scalar _ (.float x) => return x != 0
  | .text s | .scalar _ (.text s) => return s != ""
  | .tuple items => return !items.isEmpty
  | .dict entries => return !entries.isEmpty
  | .array _ _ _ [] => return false
  | .array _ _ _ [item] => item.truth
  | .array .. => throw .ambiguous
  | _ => return true

/-- The integer that a value stands for as a count or an index; fractions are cut off. -/
def toInt : Value → Except Fault Int
  | .bool b | .scalar _ (.bool b) => return if b then 1 else 0
  | .int i | .scalar _ (.int i) => return i
  | .word w | .scalar _ (.word w) => return w.toNat
  | .float x | .scalar _ (.float x) =>
    match Decimal.truncate? x with
    | some i => return i
    | .none => throw .integerOfInfinity
  | .nan _ | .scalar _ (.nan _) => throw .integerOfNan
  | .text s | .scalar _ (.text s) =>
    match intOfText? s with
    | some i =>
      let digits := s.toList.countP Text.isDigit
      if digits > digitLimit then throw (.overlongNumeral digits) else return i
    | .none => throw (.badInteger s)
  | .array _ _ _ [item] => item.toInt
  | .array .. => throw .notOneItem
  | v => throw (.notNumber v.typeName)

/-! ## Keys -/

mutual

/-- The type of the first part of a value that cannot be in a key. -/
def unhashable? : Value → Option String
  | .dict _ => some "dict"
  | .array .. => some "numpy.ndarray"
  | .closure .. => some "Closure"
  | .tuple items => unhashableIn? items
  | _ => .none

/-- The type of the first of some values that cannot be in a key. -/
def unhashableIn? : List Value → Option String
  | [] => .none
  | v :: vs =>
    match unhashable? v with
    | some t => some t
    | .none => unhashableIn? vs

end

/-- A scalar's item, or the value itself. -/
def plain : Value → Value
  | .scalar _ item => item
  | v => v

mutual

def keyEq : Value → Value → Bool
  | .tuple as, .tuple bs => keysEq as bs
  | .struct i, .struct j => i == j
  | .builtin f, .builtin g => f == g
  | .null, .null => true
  | a, b =>
    same a b ||
    match a.text?, b.text? with
    | some s, some t => s == t
    | .none, .none =>
      match a.plain.number?, b.plain.number? with
      | some m, some n => m.order n == some .eq
      | _, _ => false
    | _, _ => false

def keysEq : List Value → List Value → Bool
  | [], [] => true
  | a :: as, b :: bs => keyEq a b && keysEq as bs
  | _, _ => false

end

def lookup? (entries : List (Value × Value)) (key : Value) : Option Value :=
  (entries.find? fun (k, _) => keyEq k key).map (·.2)

/-- Sets the value for a key; a key that is there keeps its place and its form. -/
def insert (entries : List (Value × Value)) (key value : Value) : List (Value × Value) :=
  if entries.any fun (k, _) => keyEq k key then
    entries.map fun (k, v) => if keyEq k key then (k, value) else (k, v)
  else entries ++ [(key, value)]

/-! ## Comparison -/

def compareNumbers (op : CompareOp) (m n : Number) : Value := .bool (op.test (m.order n))

def orderTexts (s t : String) : Ordering := if s < t then .lt else if t < s then .gt else .eq

def compareUnordered (op : CompareOp) (equal : Bool) (a b : Value) : Except Fault Value :=
  match op with
  | .eq => return .bool equal
  | .ne => return .bool !equal
  | op => throw (.order op.symbol a.typeName b.typeName)

/-- Compares plain numbers as items of an array of their common kind. -/
def compareItems (op : CompareOp) (a b : Value) : Except Fault Value :=
  match a, b with
  | .text s, .text t => return .bool (op.test (some (orderTexts s t)))
  | a, b =>
    match a.number?, b.number? with
    | some m, some n => return compareNumbers op m n
    | _, _ => return .bool (op.test .none)

/-- Compares two arrays item by item; `objects` compares items of any sort.  Integers are compared
    exactly, with a sign or without. -/
def compareGrids (objects : Value → Value → Except Fault Value) (op : CompareOp) (a b : Grid) :
    Except Fault Value :=
  let kind := a.kind.join b.kind
  if kind = .object then
    return (← a.zipWith .bool (fun x y => do return .bool (← (← objects x y).truth)) b).toValue
  else if a.kind.isWhole && b.kind.isWhole then
    return (← a.zipWith .bool (compareItems op) b).toValue
  else if a.kind.isNumeric = b.kind.isNumeric then
    return (← (a.cast kind).zipWith .bool (compareItems op) (b.cast kind)).toValue
  else if op.isEquality then
    return (← a.zipWith .bool (fun _ _ => return .bool (op == .ne)) b).toValue
  else throw (.items op.operation [a.kind.name, b.kind.name])

/-- Compares two lists of items: the first items that differ decide, or else the lengths. -/
def compareLists (equal : Value → Value → Except Fault Bool)
    (compare : Value → Value → Except Fault Value) (op : CompareOp) :
    List Value → List Value → Except Fault Value
  | [], [] => return .bool (op.test (some .eq))
  | [], _ :: _ => return .bool (op.test (some .lt))
  | _ :: _, [] => return .bool (op.test (some .gt))
  | a :: as, b :: bs => do
    if same a b || (← equal a b) then compareLists equal compare op as bs
    else if op.isEquality then return .bool (op == .ne)
    else compare a b

/-- Every entry of the first dictionary is in the second. -/
def entriesIn (equal : Value → Value → Except Fault Bool) (others : List (Value × Value)) :
    List (Value × Value) → Except Fault Bool
  | [] => return true
  | (k, v) :: es =>
    match lookup? others k with
    | .none => return false
    | some w => do
      if same v w || (← equal w v) then entriesIn equal others es else return false

/-- Compares two values that are nested at most `fuel` deep. -/
def compareWithin (fuel : Nat) (op : CompareOp) (a b : Value) : Except Fault Value :=
  match fuel with
  | 0 => compareUnordered op false a b
  | fuel + 1 =>
    let equal (x y : Value) : Except Fault Bool := do (← compareWithin fuel .eq x y).truth
    let asGrids (_ : Unit) : Except Fault Value := do
      compareGrids (compareWithin fuel op) op (← Grid.ofValue a) (← Grid.ofValue b)
    if a.isArray || b.isArray then asGrids ()
    else if a.isNumericScalar || b.isNumericScalar then
      if op.isEquality && (a.isNullOrText || b.isNullOrText) then return .bool (op == .ne)
      else asGrids ()
    else
      match a, b with
      | .tuple as, .tuple bs => compareLists equal (compareWithin fuel op) op as bs
      | .dict as, .dict bs =>
        if op.isEquality then do
          let e ← if as.length = bs.length then entriesIn equal bs as else pure false
          compareUnordered op e a b
        else compareUnordered op false a b
      | .closure i ps e r ls, .closure j qs f s ms =>
        compareUnordered op (i == j && ps == qs && e == f && r == s && ls == ms) a b
      | .struct i, .struct j => compareUnordered op (i == j) a b
      | .builtin f, .builtin g => compareUnordered op (f == g) a b
      | .null, .null => compareUnordered op true a b
      | a, b =>
        match a.text?, b.text? with
        | some s, some t => return .bool (op.test (some (orderTexts s t)))
        | _, _ =>
          match a.number?, b.number? with
          | some m, some n => return compareNumbers op m n
          | _, _ => compareUnordered op false a b

def compare (op : CompareOp) (a b : Value) : Except Fault Value :=
  compareWithin (a.height + b.height + 1) op a b

def equals (a b : Value) : Except Fault Bool := do
  if same a b then return true else (← compare .eq a b).truth

end Value

end ExprLang
