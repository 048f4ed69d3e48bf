/-
  The text of values.

  A value reads differently when it stands alone (`Value.alone`) and when it stands in another one
  (`Value.inner`): texts are then quoted, scalars and arrays say what they are, and a struct does
  not show its members.  A text that would show an integer with too many digits cannot be written
  (`Value.overlong`, `Value.overlongAlone`).
-/
import ExprLang.Value.ArrayText
import ExprLang.Scope
import ExprLang.Expr.Describe

namespace ExprLang

def Builtin.name : Builtin → String
  | list => "make_list"
  | cons => "cons"
  | head => "head"
  | tail => "tail"
  | concat => "concat"
  | reverse => "reverse"
  | map => "list_map"
  | array => "make_array"
  | print => "print"
  | newLexer _ => "<lambda>"
  | lexerInput _ => "lexer_input"
  | lexerNext _ => "lexer_next"
  | lexerHasNext _ => "lexer_has_next"

def Builtin.fullName (f : Builtin) : String :=
  match f with
  | newLexer _ => "define_built_ins.<locals>." ++ f.name
  | lexerInput _ | lexerNext _ | lexerHasNext _ => "wrap_lexer.<locals>." ++ f.name
  | _ => f.name

def Builtin.text : Builtin → String
  | print => "<built-in function print>"
  | f => "<function " ++ f.fullName ++ " at 0x0>"

def closureText (params : List String) (rest : Bool) : String :=
  "fun(" ++ ", ".intercalate params ++ (if rest then "..." else "") ++ ")"

/-- Texts in parentheses; a single one is followed by a comma. -/
def tupleText : List String → String
  | [a] => "(" ++ a ++ ",)"
  | texts => "(" ++ ", ".intercalate texts ++ ")"

namespace Value

mutual

def inner : Value → String
  | .null => "None"
  | .bool b => describeBool b
  | .int i => toString i
  | .word w => toString w.toNat
  | .float x => Decimal.floatText x
  | .nan _ => "nan"
  | .text s => Text.quoted s
  | .tuple items => tupleText (inners items)
  | .dict entries => "\x7b" ++ ", ".intercalate (entryTexts entries) ++ "\x7d"
  | .array _ kind shape items =>
    ArrayText.inner kind shape items ((inners items).map String.toList)
  | .scalar _ (.bool b) => "np." ++ describeBool b ++ "_"
  | .scalar _ (.int i) => s!"np.int64({i})"
  | .scalar _ (.word w) => s!"np.uint64({w.toNat})"
  | .scalar _ (.text s) => "np.str_(" ++ Text.quoted s ++ ")"
  | .scalar _ item => "np.float64(" ++ item.numeral ++ ")"
  | .closure _ params _ rest _ => closureText params rest
  | .builtin f => f.text
  | .struct _ => "<environment.Environment object at 0x0>"

def inners : List Value → List String
  | [] => []
  | v :: vs => v.inner :: inners vs

def entryTexts : List (Value × Value) → List String
  | [] => []
  | (k, v) :: es => (k.inner ++ ": " ++ v.inner) :: entryTexts es

end

/-- The integer has too many digits to be written. -/
def isOverlong (i : Int) : Bool := Nat.pow 10 digitLimit ≤ i.natAbs

mutual

/-- The text of a value that stands in another one would show an integer with too many digits. -/
def overlong : Value → Bool
  | .int i => isOverlong i
  | .tuple items => (overlongs items).any id
  | .dict entries => overlongEntries entries
  | .array _ kind shape items =>
    kind == .object && (ArrayText.shown shape (overlongs items)).any id
  | _ => false

def overlongs : List Value → List Bool
  | [] => []
  | v :: vs => v.overlong :: overlongs vs

def overlongEntries : List (Value × Value) → Bool
  | [] => false
  | (k, v) :: es => k.overlong || v.overlong || overlongEntries es

end

/-- The text of a value that stands alone would show an integer with too many digits. -/
def overlongAlone {β : Type} (scopes : Forest Value β) : Value → Bool
  | .struct id => (scopes.visible id).any (·.2.overlong)
  | v => v.overlong

/-- The text of a value that stands alone; a struct shows its members, its parents' first. -/
def alone {β : Type} (scopes : Forest Value β) : Value → String
  | .text s => s
  | .scalar _ item => item.numeral
  | .array _ kind shape items =>
    ArrayText.alone kind shape items ((inners items).map String.toList)
  | .struct id => scopes.describe inner id
  | v => v.inner

end Value

end ExprLang
