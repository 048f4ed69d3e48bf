/-
  Reading JSON.

  `JsonValue.read` takes a whole text.  A field that is written twice keeps its first place and its
  last value; the words for infinity and for no number are accepted; a text has no raw control
  characters.
-/
import ExprLang.Json

namespace ExprLang.JsonValue

/-- The text without the blanks at its start. -/
def skip (cs : List Char) : List Char :=
  cs.dropWhile fun c => c = ' ' || c = '\t' || c = '\n' || c = '\r'

def hexDigit? (c : Char) : Option Nat :=
  if '0' ≤ c ∧ c ≤ '9' then some (c.toNat - 48)
  else if 'a' ≤ c ∧ c ≤ 'f' then some (c.toNat - 87)
  else if 'A' ≤ c ∧ c ≤ 'F' then some (c.toNat - 55)
  else none

/-- The value of four hexadecimal digits. -/
def hexUnit? (a b c d : Char) : Option Nat := do
  return 4096 * (← hexDigit? a) + 256 * (← hexDigit? b) + 16 * (← hexDigit? c) + (← hexDigit? d)

/-- The character that a backslash and a letter stand for. -/
def escaped? : Char → Option Char
  | '"' => some '"'
  | '\\' => some '\\'
  | '/' => some '/'
  | 'b' => some (Char.ofNat 8)
  | 'f' => some (Char.ofNat 12)
  | 'n' => some '\n'
  | 'r' => some '\r'
  | 't' => some '\t'
  | _ => none

/-- The character that stands for half of a pair without its other half. -/
def replacement : Char := Char.ofNat 0xFFFD

/-- Whether a unit is the first half of a pair. -/
def isHigh (u : Nat) : Bool := 0xD800 ≤ u && u < 0xDC00

/-- Whether a unit is the second half of a pair. -/
def isLow (u : Nat) : Bool := 0xDC00 ≤ u && u < 0xE000

/-- The rest of a text after its opening quote, and what follows the closing one.  `high` is a
    first half of a pair that waits for its second. -/
def readText (high : Option Nat) (before : List Char) : List Char → Option (String × List Char)
  | '"' :: cs => some (String.ofList (close before).reverse, cs)
  | '\\' :: 'u' :: a :: b :: c :: d :: cs => do
    let u ← hexUnit? a b c d
    match high with
    | some h =>
      if isLow u then
        readText none (Char.ofNat (0x10000 + (h - 0xD800) * 0x400 + (u - 0xDC00)) :: before) cs
      else if isHigh u then readText (some u) (replacement :: before) cs
      else readText none (Char.ofNat u :: replacement :: before) cs
    | none =>
      if isHigh u then readText (some u) before cs
      else if isLow u then readText none (replacement :: before) cs
      else readText none (Char.ofNat u :: before) cs
  | '\\' :: c :: cs => do
    let c ← escaped? c
    readText none (c :: close before) cs
  | c :: cs => if c.toNat < 32 || c = '\\' then none else readText none (c :: close before) cs
  | [] => none
where
  /-- The characters so far, with the half that still waits. -/
  close (before : List Char) : List Char := if high.isSome then replacement :: before else before

/-- The digits at the start of a text, and the rest. -/
def digits (cs : List Char) : List Char × List Char := cs.span Char.isDigit

/-- The value of decimal digits. -/
def natOf (ds : List Char) : Nat := ds.foldl (fun n c => 10 * n + (c.toNat - 48)) 0

/-- The fraction at the start of a text: its digits. -/
def readFraction : List Char → List Char × List Char
  | '.' :: cs => match digits cs with
    | ([], _) => ([], '.' :: cs)
    | (ds, rest) => (ds, rest)
  | cs => ([], cs)

/-- The exponent at the start of a text, if there is one. -/
def readExponent (cs : List Char) : Option Int × List Char :=
  match cs with
  | c :: rest =>
    if c = 'e' ∨ c = 'E' then
      let (negative, rest) := match rest with
        | '-' :: rest => (true, rest)
        | '+' :: rest => (false, rest)
        | rest => (false, rest)
      match digits rest with
      | ([], _) => (none, cs)
      | (ds, rest) => (some (if negative then -(natOf ds : Int) else natOf ds), rest)
    else (none, cs)
  | [] => (none, cs)

/-- The number at the start of a text.  It is whole if it has neither fraction nor exponent. -/
def readNumber (negative : Bool) (cs : List Char) : Option (JsonValue × List Char) :=
  let (whole, rest) := match cs with
    | '0' :: rest => (['0'], rest)
    | cs => digits cs
  if whole.isEmpty then none
  else
    match readFraction rest with
    | (fraction, rest) => match readExponent rest with
      | (exponent, rest) =>
        if fraction.isEmpty && exponent.isNone then
          some (int (if negative then -(natOf whole : Int) else natOf whole), rest)
        else
          let numeral := whole ++ '.' :: fraction ++ 'e' :: (toString (exponent.getD 0)).toList
          let x := (unsignedFloat? numeral).getD 0
          some (float (if negative then -x else x), rest)

def afterWord? (word : String) (cs : List Char) : Option (List Char) :=
  if word.toList.isPrefixOf cs then some (cs.drop word.length) else none

/-- The word or number at the start of a text. -/
def readAtom (cs : List Char) : Option (JsonValue × List Char) :=
  let words : List (String × JsonValue) :=
    [("null", null), ("true", bool true), ("false", bool false), ("NaN", float (0.0 / 0.0)),
     ("Infinity", float (1.0 / 0.0)), ("-Infinity", float (-1.0 / 0.0))]
  match words.findSome? fun (word, v) => (afterWord? word cs).map fun rest => (v, rest) with
  | some found => some found
  | none => match cs with
    | '-' :: cs => readNumber true cs
    | cs => readNumber false cs

def setField (fields : List (String × JsonValue)) (name : String) (v : JsonValue) :
    List (String × JsonValue) :=
  if fields.any fun (other, _) => other == name then
    fields.map fun (other, old) => if other == name then (other, v) else (other, old)
  else fields ++ [(name, v)]

/-- The items of a list up to its closing bracket, each read by `read`. -/
def readItems (read : List Char → Option (JsonValue × List Char)) :
    Nat → List Char → Option (List JsonValue × List Char)
  | 0, _ => none
  | n + 1, cs => do
    let (v, cs) ← read cs
    match skip cs with
    | ',' :: cs => do
      let (vs, cs) ← readItems read n (skip cs)
      return (v :: vs, cs)
    | ']' :: cs => return ([v], cs)
    | _ => none

/-- The fields of an object up to its closing brace, after those in `before`. -/
def readFields (read : List Char → Option (JsonValue × List Char))
    (before : List (String × JsonValue)) :
    Nat → List Char → Option (List (String × JsonValue) × List Char)
  | 0, _ => none
  | n + 1, '"' :: cs => do
    let (name, cs) ← readText none [] cs
    match skip cs with
    | ':' :: cs => do
      let (v, cs) ← read (skip cs)
      let fields := setField before name v
      match skip cs with
      | ',' :: cs => readFields read fields n (skip cs)
      | '\x7d' :: cs => return (fields, cs)
      | _ => none
    | _ => none
  | _ + 1, _ => none

/-- The value at the start of a text, nested less than `n` deep and with less than `n` items in
    each list. -/
def readValue : Nat → List Char → Option (JsonValue × List Char)
  | 0, _ => none
  | n + 1, cs =>
    match cs with
    | '"' :: cs => (readText none [] cs).map fun (s, rest) => (text s, rest)
    | '[' :: cs => match skip cs with
      | ']' :: rest => some (list [], rest)
      | cs => (readItems (readValue n) n cs).map fun (items, rest) => (list items, rest)
    | '\x7b' :: cs => match skip cs with
      | '\x7d' :: rest => some (object [], rest)
      | cs => (readFields (readValue n) [] n cs).map fun (fields, rest) => (object fields, rest)
    | cs => readAtom cs

/-- The value that a text holds.  A value is never nested deeper, nor has it more items, than its
    text has characters. -/
def read (s : String) : Except JsonFault JsonValue :=
  match readValue (s.length + 1) (skip s.toList) with
  | some (v, rest) => if (skip rest).isEmpty then return v else throw .malformed
  | none => throw .malformed

end ExprLang.JsonValue
