/-
  JSON values.

  Objects keep their fields in the order in which they were first written, and whole numbers are
  told from numbers with a fraction.  The readers of fields and numbers say why they cannot answer:
  asking a value for its fields when it has none is one fault, a text that is no number another.
-/
import ExprLang.Decimal.Format
import ExprLang.Text.Blank
import ExprLang.Text.Digit

namespace ExprLang

inductive JsonValue where
  | null
  | bool (b : Bool)
  | int (i : Int)
  | float (x : Float)
  | text (s : String)
  | list (items : List JsonValue)
  | object (fields : List (String × JsonValue))
deriving Inhabited

/-- Why a value cannot be read in the way that is asked for. -/
inductive JsonFault where
  /-- The text is not JSON. -/
  | malformed
  /-- The value has no named fields. -/
  | noFields
  /-- The text is no number. -/
  | noNumeral
  /-- The value is of a kind that the operation does not take. -/
  | wrongKind
deriving Repr, DecidableEq, BEq

def JsonFault.word : JsonFault → String
  | .malformed => "JSONDecodeError"
  | .noFields => "AttributeError"
  | .noNumeral => "ValueError"
  | .wrongKind => "TypeError"

/-- The value of digits that may have single underscores between them, and their number. -/
def numeralDigits? (cs : List Char) : Option (Nat × Nat) :=
  (Text.splitAt '_' cs).foldl (fun n? part =>
    n?.bind fun (n, count) =>
      if part.isEmpty || !part.all Text.isDigit then none
      else some (part.foldl (fun n c => 10 * n + (Text.digit? c).getD 0) n, count + part.length))
    (some (0, 0))

def optionalDigits? (cs : List Char) : Option (Nat × Nat) :=
  if cs.isEmpty then some (0, 0) else numeralDigits? cs

/-- The value of a numeral without its sign: digits with an optional point and exponent, or the
    words for infinity and for no number. -/
def unsignedFloat? (cs : List Char) : Option Float :=
  let lower := cs.map Char.toLower
  if lower = "inf".toList ∨ lower = "infinity".toList then some (1.0 / 0.0)
  else if lower = "nan".toList then some (0.0 / 0.0)
  else
    let (mantissa, exponent) := (Text.cut? 'e' lower).getD (lower, ['0'])
    let exponent? : Option Int := match exponent with
      | '-' :: ds => (numeralDigits? ds).map fun (n, _) => -(n : Int)
      | '+' :: ds => (numeralDigits? ds).map fun (n, _) => (n : Int)
      | ds => (numeralDigits? ds).map fun (n, _) => (n : Int)
    let (whole, fraction) := (Text.cut? '.' mantissa).getD (mantissa, [])
    match exponent?, optionalDigits? whole, optionalDigits? fraction with
    | some e, some (n, count), some (m, places) =>
      if count + places = 0 then none
      else
        let digits := n * Nat.pow 10 places + m
        -- beyond these the value is infinite or zero, whatever the digits are
        if e > 400 then some (if digits = 0 then 0.0 else 1.0 / 0.0)
        else if e < -400 - places - count then some 0.0
        else some (Decimal.floatOfDecimal digits (e - places))
    | _, _, _ => none

/-- The number that a text holds, with blanks around it and a sign allowed. -/
def floatOfText? (text : String) : Option Float :=
  match Text.trim text.toList with
  | '-' :: cs => (unsignedFloat? cs).map fun x => -x
  | '+' :: cs => unsignedFloat? cs
  | cs => unsignedFloat? cs

namespace JsonValue

/-- Whether a value counts as nothing: null, false, zero, and what has no items. -/
def isVoid : JsonValue → Bool
  | null => true
  | bool b => !b
  | int i => i == 0
  | float x => x == 0
  | text s => s.isEmpty
  | list items => items.isEmpty
  | object fields => fields.isEmpty

/-- The value, or an object without fields in place of a value that counts as nothing. -/
def orEmpty (v : Option JsonValue) : JsonValue :=
  match v with
  | none => object []
  | some v => if v.isVoid then object [] else v

def fields : JsonValue → Except JsonFault (List (String × JsonValue))
  | object fields => return fields
  | _ => throw .noFields

def field? (v : JsonValue) (name : String) : Except JsonFault (Option JsonValue) := do
  return (← v.fields).lookup name

/-- The number that a value holds or spells. -/
def toFloat : JsonValue → Except JsonFault Float
  | bool b => return if b then 1.0 else 0.0
  | int i => return Decimal.floatOfInt i
  | float x => return x
  | text s => match floatOfText? s with
    | some x => return x
    | none => throw .noNumeral
  | _ => throw .wrongKind

def number : JsonValue → Except JsonFault Float
  | text _ => throw .noNumeral
  | v => v.toFloat

/-- The difference of two numbers, whole if both are. -/
def minus : JsonValue → JsonValue → Except JsonFault JsonValue
  | int i, int j => return int (i - j)
  | text _, _ => throw .wrongKind
  | _, text _ => throw .wrongKind
  | v, w => return float ((← v.toFloat) - (← w.toFloat))

/-- A number rounded to `places` places after the point. -/
def rounded (places : Nat) : JsonValue → JsonValue
  | float x => float (Decimal.roundPlaces places x)
  | v => v

def plain : JsonValue → String
  | null => "None"
  | bool b => if b then "True" else "False"
  | int i => toString i
  | float x => Decimal.floatText x
  | text s => s
  | list _ => "[]"
  | object _ => "\x7b\x7d"

end JsonValue

end ExprLang
