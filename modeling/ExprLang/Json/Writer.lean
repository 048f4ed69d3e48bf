/-
  Writing JSON on one line: a comma or a colon is followed by a blank, and only printable ASCII
  characters stand for themselves.
-/
import ExprLang.Json
import ExprLang.Text.Quoted

namespace ExprLang.JsonValue

def unitText (u : Nat) : List Char := '\\' :: 'u' :: Text.hex 4 u

def charText (c : Char) : List Char :=
  let n := c.toNat
  if c = '"' ∨ c = '\\' then ['\\', c]
  else if c = '\n' then ['\\', 'n']
  else if c = '\r' then ['\\', 'r']
  else if c = '\t' then ['\\', 't']
  else if n = 8 then ['\\', 'b']
  else if n = 12 then ['\\', 'f']
  else if 32 ≤ n ∧ n < 127 then [c]
  else if n < 0x10000 then unitText n
  else unitText (0xD800 + (n - 0x10000) / 0x400) ++ unitText (0xDC00 + (n - 0x10000) % 0x400)

def quotedText (s : String) : String :=
  String.ofList ('"' :: s.toList.flatMap charText ++ ['"'])

def numberText (x : Float) : String :=
  if x.isNaN then "NaN"
  else if x.isInf then (if x < 0 then "-Infinity" else "Infinity")
  else Decimal.floatText x

def write : JsonValue → String
  | null => "null"
  | bool b => if b then "true" else "false"
  | int i => toString i
  | float x => numberText x
  | text s => quotedText s
  | list items => "[" ++ ", ".intercalate (writeItems items) ++ "]"
  | object fields => "\x7b" ++ ", ".intercalate (writeFields fields) ++ "\x7d"
where
  /-- The items of a list. -/
  writeItems : List JsonValue → List String
    | [] => []
    | v :: vs => write v :: writeItems vs
  /-- The fields of an object. -/
  writeFields : List (String × JsonValue) → List String
    | [] => []
    | (name, v) :: fields => (quotedText name ++ ": " ++ write v) :: writeFields fields

end ExprLang.JsonValue
