/-
  Values.

  A program computes numbers, texts, tuples, dictionaries, arrays, functions and structs.  Lists are
  nested pairs that end in the empty tuple.  Arrays hold items of one kind; indexing an array gives
  a *scalar*, a plain item that keeps on calculating by the rules of arrays.

  Not everything equals itself: a float that is not a number does not, and comparing an array gives
  an array.  Such values carry a mark, and two of them with the same mark are the same value
  (`Value.same`).
-/
import ExprLang.Expr
import ExprLang.Decimal.Format

namespace ExprLang

/-- What the items of an array are. -/
inductive ItemKind where
  | bool
  /-- Integers of 64 bits. -/
  | int
  /-- Integers of 64 bits that have no sign. -/
  | word
  | float
  /-- Texts of at most `width` characters. -/
  | text (width : Nat)
  /-- Values of any sort. -/
  | object
deriving DecidableEq, Repr

/-- The functions that every program can use. -/
inductive Builtin where
  | list | cons | head | tail | concat | reverse | map | array | print
  /-- Makes a lexer.  There is one such function for each scope that was given the built-ins. -/
  | newLexer (scope : Nat)
  | lexerInput (lexer : Nat)
  | lexerNext (lexer : Nat)
  | lexerHasNext (lexer : Nat)
deriving DecidableEq, Repr

inductive Value where
  /-- What an expression without a result gives. -/
  | null
  | bool (b : Bool)
  | int (i : Int)
  /-- An integer without a sign; only arrays hold such. -/
  | word (w : UInt64)
  /-- A number that equals itself. -/
  | float (x : Float)
  /-- Not a number. -/
  | nan (mark : Nat)
  | text (s : String)
  | tuple (items : List Value)
  /-- Entries in the order in which their keys were first set. -/
  | dict (entries : List (Value × Value))
  /-- An array with its items row by row. -/
  | array (mark : Nat) (kind : ItemKind) (shape : List Nat) (items : List Value)
  /-- An item taken from an array: a plain boolean, number or text. -/
  | scalar (mark : Nat) (item : Value)
  /-- A function with the scope it was made in; `locals` are further names that a call binds. -/
  | closure (scope : Nat) (params : List String) (body : Expr) (rest : Bool)
      (locals : Option (List String))
  | builtin (f : Builtin)
  /-- A struct, which is a scope. -/
  | struct (scope : Nat)

/-- The most digits that an integer can be written or read with. -/
def digitLimit : Nat := 4300

namespace Value

/-- The empty list. -/
def nil : Value := .tuple []

/-- The list with a first element and a rest. -/
def cons (head tail : Value) : Value := .tuple [head, tail]

def ofFloat (x : Float) : Value := if x.isNaN then .nan 0 else .float x

def withMark (mark : Nat) : Value → Value
  | .nan _ => .nan mark
  | .array _ k s is => .array mark k s is
  | .scalar _ v => .scalar mark v
  | v => v

/-- Two values that do not equal themselves are the same one. -/
def same : Value → Value → Bool
  | .nan m, .nan n | .array m _ _ _, .array n _ _ _ | .scalar m _, .scalar n _ => m == n
  | _, _ => false

def typeName : Value → String
  | .null => "NoneType"
  | .bool _ => "bool"
  | .int _ | .word _ => "int"
  | .float _ | .nan _ => "float"
  | .text _ => "str"
  | .tuple _ => "tuple"
  | .dict _ => "dict"
  | .array .. => "numpy.ndarray"
  | .scalar _ (.bool _) => "numpy.bool"
  | .scalar _ (.int _) => "numpy.int64"
  | .scalar _ (.word _) => "numpy.uint64"
  | .scalar _ (.text _) => "numpy.str_"
  | .scalar _ _ => "numpy.float64"
  | .closure .. => "Closure"
  | .builtin .print => "builtin_function_or_method"
  | .builtin _ => "function"
  | .struct _ => "Environment"

mutual

def height : Value → Nat
  | .tuple items => heights items + 1
  | .dict entries => entryHeights entries + 1
  | .array _ _ _ items => heights items + 1
  | .scalar _ item => item.height + 1
  | _ => 0

def heights : List Value → Nat
  | [] => 0
  | v :: vs => max v.height (heights vs)

def entryHeights : List (Value × Value) → Nat
  | [] => 0
  | (k, v) :: es => max (max k.height v.height) (entryHeights es)

end

end Value

end ExprLang
