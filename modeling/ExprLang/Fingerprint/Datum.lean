/-
  The data that a benchmark may return.

  Sets and dictionaries hold no two equal members or keys, and only data that cannot change may
  be one: see `Datum.fixed`.  Numbers of all kinds are equal if their values are.
-/
import ExprLang.Fingerprint.Sha256
import ExprLang.Decimal.Format

namespace ExprLang

open Sha256 (Bytes)

/-- How raw bytes are held. -/
inductive BytesKind
  | bytes | bytearray | memoryview
deriving DecidableEq, Repr

/-- The kinds of number that an array holds. -/
inductive NumberKind
  /-- Floating-point numbers of 4 or 8 bytes. -/
  | float (width : Nat)
  /-- Whole numbers with a sign. -/
  | int (width : Nat)
  /-- Whole numbers without a sign. -/
  | natural (width : Nat)
  | bool
deriving DecidableEq, Repr

/-- A number of an array. -/
inductive ArrayItem
  | float (x : Float)
  | whole (i : Int)

structure NumberArray where
  kind : NumberKind
  shape : List Nat
  items : List ArrayItem

inductive Datum where
  | null
  | bool (b : Bool)
  | int (i : Int)
  | float (x : Float)
  /-- A floating-point number taken out of an array. -/
  | floatItem (x : Float)
  /-- A whole number taken out of an array. -/
  | intItem (i : Int)
  | complex (re im : Float)
  | text (s : String)
  | bytes (kind : BytesKind) (bs : Bytes)
  | list (items : List Datum)
  | tuple (items : List Datum)
  | set (items : List Datum)
  /-- A set that cannot change. -/
  | frozenset (items : List Datum)
  | dict (entries : List (Datum × Datum))
  /-- A record with the fields `left` and `right`. -/
  | pair (left right : Datum)
  /-- A datum of a library kind, known by its written form. -/
  | written (kind form : String)
  | array (a : NumberArray)
  /-- The numbers below `n`, not listed. -/
  | range (n : Nat)
  /-- The kind of whole numbers, which gives zero when called. -/
  | intKind
  /-- A datum with no content. -/
  | blank
  | ellipsis

namespace Datum

def kindName : Datum → String
  | .null => "NoneType"
  | .bool _ => "bool"
  | .int _ => "int"
  | .float _ => "float"
  | .floatItem _ => "float64"
  | .intItem _ => "int64"
  | .complex _ _ => "complex"
  | .text _ => "str"
  | .bytes .bytes _ => "bytes"
  | .bytes .bytearray _ => "bytearray"
  | .bytes .memoryview _ => "memoryview"
  | .list _ => "list"
  | .tuple _ => "tuple"
  | .set _ => "set"
  | .frozenset _ => "frozenset"
  | .dict _ => "dict"
  | .pair _ _ => "Pair"
  | .written kind _ => kind
  | .array _ => "ndarray"
  | .range _ => "range"
  | .intKind => "type"
  | .blank => "object"
  | .ellipsis => "ellipsis"

mutual

/-- May a datum be a member of a set or a key of a dictionary? -/
def fixed : Datum → Bool
  | .list _ | .set _ | .dict _ | .pair _ _ | .array _ | .bytes .bytearray _ => false
  | .tuple items => allFixed items
  | _ => true

/-- May all data be members of sets? -/
def allFixed : List Datum → Bool
  | [] => true
  | d :: ds => fixed d && allFixed ds

end

/-! ## Equality -/

/-- The value of a number. -/
inductive Amount
  | whole (i : Int)
  | float (x : Float)

def amount? : Datum → Option Amount
  | .bool b => some (.whole (if b then 1 else 0))
  | .int i | .intItem i => some (.whole i)
  | .float x | .floatItem x => some (.float x)
  | _ => none

/-- Are a whole and a floating-point number equal? -/
def equalsFloat (i : Int) (x : Float) : Bool :=
  match Decimal.Binary.ofFloat? x with
  | none => false
  | some y => Decimal.compareInt i y == .eq

def Amount.equals : Amount → Amount → Bool
  | .whole i, .whole j => i == j
  | .whole i, .float y => equalsFloat i y
  | .float x, .whole j => equalsFloat j x
  | .float x, .float y => x == y

/-- Are two data equal that hold no others? -/
def equalsPlain (a b : Datum) : Bool :=
  match amount? a, amount? b with
  | some x, some y => x.equals y
  | _, _ =>
    match a, b with
    | .null, .null | .intKind, .intKind | .ellipsis, .ellipsis => true
    | .complex x y, .complex u v => x == u && y == v
    | .text s, .text t => s == t
    | .bytes _ s, .bytes _ t => s == t
    | .written k s, .written l t => k == l && s == t
    | .range m, .range n => m == n
    | _, _ => false

mutual

def equals : Datum → Datum → Bool
  | .tuple as, .tuple bs => equalsAll as bs
  | .frozenset as, .frozenset bs => as.length == bs.length && within as bs
  | a, b => equalsPlain a b

def equalsAll : List Datum → List Datum → Bool
  | [], [] => true
  | a :: as, b :: bs => equals a b && equalsAll as bs
  | _, _ => false

/-- Is each of the first data equal to one of the second? -/
def within : List Datum → List Datum → Bool
  | [], _ => true
  | a :: as, bs => bs.any (fun b => equals a b) && within as bs

end

def addMember (members : List Datum) (d : Datum) : List Datum :=
  if members.any (equals · d) then members else members ++ [d]

/-- The entries of a dictionary with one more.  An equal key keeps its place and its form, and gets
    the new value. -/
def addEntry (k v : Datum) : List (Datum × Datum) → List (Datum × Datum)
  | [] => [(k, v)]
  | (l, w) :: rest => if equals l k then (l, v) :: rest else (l, w) :: addEntry k v rest

/-! ## Multiples -/

/-- A datum taken `n` times: a product for numbers, copies in a row for sequences. -/
def times? (n : Nat) : Datum → Option Datum
  | .bool b => some (.int (if b then n else 0))
  | .int i => some (.int (i * n))
  | .intItem i => some (.intItem (i * n))
  | .float x => some (.float (x * Decimal.floatOfInt n))
  | .floatItem x => some (.floatItem (x * Decimal.floatOfInt n))
  | .text s => some (.text (String.join (List.replicate n s)))
  | .bytes .memoryview _ => none
  | .bytes kind bs => some (.bytes kind (List.replicate n bs).flatten)
  | .list items => some (.list (List.replicate n items).flatten)
  | .tuple items => some (.tuple (List.replicate n items).flatten)
  | _ => none

end Datum

end ExprLang
