/-
  Why an evaluation has no value.

  A fault says what went wrong and with what.  `Fault.sort` groups faults, and `Fault.message` is the
  text that a session shows.
-/
import ExprLang.Value
import ExprLang.Source
import ExprLang.Text.Quoted

namespace ExprLang

/-- Why an evaluation has no value. -/
inductive Fault where
  | read (fault : ReadFault)
  /-- There is no expression to evaluate. -/
  | nothing
  | unknownVariable (name : String) (pos : Pos)
  | unknownMember (name : String) (pos : Pos)
  /-- No entry for a key; `plain` and `shown` are its texts alone and among others. -/
  | missingKey (plain shown : String)
  /-- No entry for a key whose text would show an integer with too many digits. -/
  | missingLongKey
  | noAttribute (type name : String)
  /-- An operator that does not take these types. -/
  | operands (op left right : String)
  /-- Only values of one type can be joined. -/
  | joining (type other : String)
  /-- A sequence can only be repeated a whole number of times. -/
  | repeating (type : String)
  | operand (op type : String)
  | order (op left right : String)
  /-- An operation that is not defined for items of these kinds. -/
  | items (operation : String) (kinds : List String)
  | booleanDifference
  | booleanNegation
  | notCallable (type : String)
  | notIndexable (type : String)
  | notSearchable (type : String)
  /-- A text or tuple is indexed by numbers only. -/
  | memberOfText
  | memberOfTuple
  | memberOfArray
  | unhashable (type : String)
  | notNumber (type : String)
  | notOneItem
  | missingArguments (function : String) (names : List String)
  | extraArguments (function : String) (takes given : Nat)
  | ambiguous
  /-- The parts of an array differ in shape. -/
  | ragged (shape : List Nat)
  | shapes (left right : List Nat)
  | badInteger (text : String)
  /-- An integer has too many digits to be written. -/
  | overlongInteger
  /-- A text has too many digits to be read as an integer. -/
  | overlongNumeral (digits : Nat)
  | integerOfNan
  | integerOfInfinity
  | integerTooLarge
  | quotientTooLarge
  /-- An integer that the items of an array cannot hold. -/
  | tooLargeForItems (i : Int) (kind : String)
  | notText
  | outOfRange (what : String)
  | outOfBounds (index : Int) (size : Nat)
  | scalarIndex
  | divisionByZero (float : Bool)
  /-- A lexer was asked for a token before it had a text. -/
  | noLexerInput
  | endOfInput
  /-- Calls are nested too deeply. -/
  | tooDeep
  /-- A loop did not end. -/
  | endless
deriving DecidableEq, Repr

inductive FaultSort where
  | syntax_ | type | key | attribute | value | index | division | overflow
  | unsupported | noFile | directory | notDirectory | depth | endOfInput | state
deriving DecidableEq, Repr

def ReadFault.sort : ReadFault → FaultSort
  | .syntax_ _ => .syntax_
  | .forLoop => .type
  | .empty | .bareTarget => .attribute
  | .tooDeep => .depth
  | .noSuchFile _ => .noFile
  | .isDirectory _ => .directory
  | .notDirectory _ => .notDirectory

def Fault.sort : Fault → FaultSort
  | read f => f.sort
  | nothing => .unsupported
  | unknownVariable .. | unknownMember .. | missingKey .. | missingLongKey => .key
  | noAttribute .. => .attribute
  | operands .. | joining .. | repeating _ | operand .. | order .. | items .. | booleanDifference
  | booleanNegation | notCallable _ | notIndexable _ | notSearchable _ | memberOfText
  | memberOfTuple | unhashable _ | notNumber _ | notOneItem | missingArguments ..
  | extraArguments .. => .type
  | ambiguous | ragged _ | shapes .. | badInteger _ | overlongInteger | overlongNumeral _
  | integerOfNan | notText => .value
  | memberOfArray | outOfRange _ | outOfBounds .. | scalarIndex => .index
  | integerOfInfinity | integerTooLarge | quotientTooLarge | tooLargeForItems .. => .overflow
  | divisionByZero _ => .division
  | noLexerInput => .state
  | endOfInput => .endOfInput
  | tooDeep | endless => .depth

def ReadFault.message : ReadFault → String
  | .syntax_ f => f.message
  | .forLoop => "SequenceExpression.__init__() missing 1 required positional argument: 'expressions'"
  | .empty => "'NoneType' object has no attribute 'position'"
  | .bareTarget => "'str' object has no attribute 'position'"
  | .tooDeep => "maximum recursion depth exceeded"
  | .noSuchFile path => s!"[Errno 2] No such file or directory: {Text.quoted path}"
  | .isDirectory path => s!"[Errno 21] Is a directory: {Text.quoted path}"
  | .notDirectory path => s!"[Errno 20] Not a directory: {Text.quoted path}"

/-- Where a node starts, as messages about names give it. -/
def Pos.place (p : Pos) : String := p.start.1 ++ ":" ++ p.start.2

/-- Names joined by commas, the last by a word. -/
def enumerate : List String → String
  | [] => ""
  | [a] => a
  | [a, b] => a ++ " and " ++ b
  | names => ", ".intercalate names.dropLast ++ ", and " ++ names.getLastD ""

def shapeText (shape : List Nat) : String :=
  match shape with
  | [n] => s!"({n},)"
  | ns => "(" ++ ", ".intercalate (ns.map toString) ++ ")"

def narrowShapeText (shape : List Nat) : String :=
  match shape with
  | [n] => s!"({n},)"
  | ns => "(" ++ ",".intercalate (ns.map toString) ++ ")"

/-- What a fault says; a missing key stands as it is. -/
def Fault.text : Fault → String
  | read f => f.message
  | nothing => "None"
  | unknownVariable name pos => s!"Unknown variable {name} in {pos.place}"
  | unknownMember name pos => s!"Unknown member {name} in {pos.place}"
  | missingKey plain _ => plain
  | missingLongKey => ""
  | noAttribute type name => s!"'{type}' object has no attribute '{name}'"
  | operands op a b => s!"unsupported operand type(s) for {op}: '{a}' and '{b}'"
  | joining a b => s!"can only concatenate {a} (not \"{b}\") to {a}"
  | repeating a => s!"can't multiply sequence by non-int of type '{a}'"
  | operand op a => s!"bad operand type for unary {op}: '{a}'"
  | order op a b => s!"'{op}' not supported between instances of '{a}' and '{b}'"
  | items operation kinds =>
    let shown := match kinds with
      | [k] => k
      | ks => "(" ++ ", ".intercalate ks ++ ")"
    s!"ufunc '{operation}' did not contain a loop with signature matching types {shown} -> None"
  | booleanDifference =>
    "numpy boolean subtract, the `-` operator, is not supported, use the bitwise_xor, " ++
      "the `^` operator, or the logical_xor function instead."
  | booleanNegation =>
    "The numpy boolean negative, the `-` operator, is not supported, use the `~` operator or " ++
      "the logical_not function instead."
  | notCallable a => s!"'{a}' object is not callable"
  | notIndexable a => s!"'{a}' object is not subscriptable"
  | notSearchable a => s!"argument of type '{a}' is not iterable"
  | memberOfText => "string indices must be integers, not 'str'"
  | memberOfTuple => "tuple indices must be integers or slices, not str"
  | memberOfArray =>
    "only integers, slices (`:`), ellipsis (`...`), numpy.newaxis (`None`) and integer or " ++
      "boolean arrays are valid indices"
  | unhashable a => s!"unhashable type: '{a}'"
  | notNumber a =>
    s!"int() argument must be a string, a bytes-like object or a real number, not '{a}'"
  | notOneItem => "only length-1 arrays can be converted to Python scalars"
  | missingArguments f names =>
    let count := names.length
    let plural := if count = 1 then "" else "s"
    let shown := enumerate (names.map Text.quoted)
    s!"{f}() missing {count} required positional argument{plural}: {shown}"
  | extraArguments f takes given =>
    let plural := if takes = 1 then "" else "s"
    let verb := if given = 1 then "was" else "were"
    s!"{f}() takes {takes} positional argument{plural} but {given} {verb} given"
  | ambiguous =>
    "The truth value of an array with more than one element is ambiguous. Use a.any() or a.all()"
  | ragged shape =>
    let dims := shape.length
    "setting an array element with a sequence. The requested array has an inhomogeneous shape " ++
      s!"after {dims} dimensions. The detected shape was {shapeText shape} + inhomogeneous part."
  | shapes a b =>
    "operands could not be broadcast together with shapes " ++
      s!"{narrowShapeText a} {narrowShapeText b} "
  | badInteger t => s!"invalid literal for int() with base 10: {Text.quoted t}"
  | overlongInteger =>
    s!"Exceeds the limit ({digitLimit} digits) for integer string conversion; " ++
      "use sys.set_int_max_str_digits() to increase the limit"
  | overlongNumeral n =>
    s!"Exceeds the limit ({digitLimit} digits) for integer string conversion: " ++
      s!"value has {n} digits; use sys.set_int_max_str_digits() to increase the limit"
  | integerOfNan => "cannot convert float NaN to integer"
  | integerOfInfinity => "cannot convert float infinity to integer"
  | integerTooLarge => "int too large to convert to float"
  | quotientTooLarge => "integer division result too large for a float"
  | tooLargeForItems i kind => s!"Python integer {i} out of bounds for {kind}"
  | notText => "Expected a string"
  | outOfRange what => s!"{what} index out of range"
  | outOfBounds i n => s!"index {i} is out of bounds for axis 0 with size {n}"
  | scalarIndex => "invalid index to scalar variable."
  | divisionByZero float => if float then "float division by zero" else "division by zero"
  | noLexerInput => "No input string given with input()"
  | endOfInput => ""
  | tooDeep => "maximum recursion depth exceeded"
  | endless => ""

/-- What a session shows for a fault: faults about keys and names stand in quotes. -/
def Fault.message : Fault → String
  | missingKey _ shown => shown
  | f => if f.sort = .key then Text.quoted f.text else f.text

def Fault.shown : Fault → Except Fault String
  | missingLongKey => throw overlongInteger
  | f => return f.message

end ExprLang
