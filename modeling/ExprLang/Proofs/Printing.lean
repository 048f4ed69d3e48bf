/-
  Printing expressions.

  A piece is a token without its place.  An expression is printed as a list of pieces, in which
  every part that is an expression stands in parentheses, and these are spelled with a blank between
  any two.

  * `Expr.printable` says which expressions are printed so that they can be read again: the names
    are names and no reserved words, the literals have the form that the lexer asks for, and nothing
    is missing where the grammar needs something;
  * `Expr.unplaced` forgets the positions;
  * `valid_pieces`: what is printed for such an expression are pieces that can be spelled.
-/
import ExprLang.Grammar
import ExprLang.Token.Lexer

namespace ExprLang

/-! ## Pieces -/

/-- A token without its place. -/
structure Piece where
  kind : Kind
  text : String
deriving DecidableEq, Repr

/-- What remains of a token without its place. -/
def Token.piece (t : Token) : Piece := ⟨t.kind, t.text⟩

namespace Piece

def word (w : Keyword) : Piece := ⟨.word w, w.text⟩

def mark (m : Mark) : Piece := ⟨.mark m, m.text⟩

/-- An identifier. -/
def name (x : String) : Piece := ⟨.ident, x⟩

def spelling (p : Piece) : List Char :=
  match p.kind with
  | .string => '"' :: p.text.toList ++ ['"']
  | .char => '\'' :: p.text.toList ++ ['\'']
  | _ => p.text.toList

end Piece

def spell : List Piece → List Char
  | [] => []
  | [p] => p.spelling
  | p :: ps => p.spelling ++ ' ' :: spell ps

theorem mem_spell {c : Char} : ∀ {ps : List Piece}, c ∈ spell ps →
    c = ' ' ∨ ∃ p ∈ ps, c ∈ p.spelling
  | [p], h => .inr ⟨p, by simp, h⟩
  | p :: q :: ps, h => by
    rw [spell, List.mem_append, List.mem_cons] at h
    · rcases h with h | rfl | h
      · exact .inr ⟨p, by simp, h⟩
      · exact .inl rfl
      · rcases mem_spell h with h | ⟨r, hr, h⟩
        · exact .inl h
        · exact .inr ⟨r, .tail p hr, h⟩
    · simp

/-- The text is a name and, in any letter case, no reserved word. -/
def isName (x : String) : Bool :=
  match x.toList with
  | [] => false
  | c :: cs => isWordStart c && cs.all isWordPart &&
      (Keyword.ofUpper? (String.ofList ((c :: cs).map Char.toUpper))).isNone

/-- The text is made of digits with at most one point, and has a digit. -/
def isNumeral (s : String) : Bool :=
  let whole := s.toList.takeWhile Text.isDigit
  match s.toList.dropWhile Text.isDigit with
  | [] => !whole.isEmpty
  | c :: fraction => c == '.' && fraction.all Text.isDigit && !(whole.isEmpty && fraction.isEmpty)

/-- The text can stand between double quotes. -/
def isStringText (s : String) : Bool := s.toList.all fun c => c != '"' && c != '\n'

/-- The text can stand between single quotes. -/
def isCharText (s : String) : Bool :=
  match s.toList with
  | [c] => c != '\n'
  | _ => false

def Piece.valid (p : Piece) : Bool :=
  match p.kind with
  | .number => isNumeral p.text
  | .string => isStringText p.text
  | .char => isCharText p.text
  | .ident => isName p.text
  | .word w => p.text == w.text
  | .mark m => p.text == m.text

/-! ## Expressions -/

/-- An operator before an operand. -/
def UnOp.piece (op : UnOp) : Piece := ⟨Grammar.unaryKindOf op, op.text⟩

/-- An operator between two operands. -/
def BinOp.piece (op : BinOp) : Piece := ⟨Grammar.kindOf op, op.text⟩

def enclose (ps : List Piece) : List Piece := .mark .lparen :: ps ++ [.mark .rparen]

def listNames : List String → List Piece
  | [] => []
  | [x] => [.name x]
  | x :: xs => .name x :: .mark .comma :: listNames xs

/-- Parameters, with three dots if the last one takes all further arguments. -/
def listParams (xs : List String) (rest : Bool) : List Piece :=
  listNames xs ++ if rest then List.replicate 3 (.mark .dot) else []

namespace Expr

mutual

def pieces : Expr → List Piece
  | .number _ s => [⟨.number, s⟩]
  | .bool _ b => [.word (if b then .true_ else .false_)]
  | .string _ s => [⟨.string, s⟩]
  | .char _ s => [⟨.char, s⟩]
  | .array _ es => .mark .lbracket :: listPieces .comma es ++ [.mark .rbracket]
  | .dict _ es => .mark .lbrace :: entryPieces es ++ [.mark .rbrace]
  | .unary _ op a => op.piece :: enclose a.pieces
  | .binary _ op a b => enclose a.pieces ++ op.piece :: enclose b.pieces
  | .index _ a b =>
    enclose a.pieces ++ .mark .lbracket :: enclose b.pieces ++ [.mark .rbracket]
  | .assign _ (.var _ x) a => .name x :: .mark .assign :: enclose a.pieces
  | .assign _ (.bare f) (.letIn _ [⟨_, _, .lambda _ xs a rest⟩] _) =>
    .word .fun_ :: .name f :: listParams xs rest ++ .mark .arrow :: enclose a.pieces
  | .assign _ (.bare _) _ => []
  | .var _ x => [.name x]
  | .lock _ xs a => .word .lock :: listNames xs ++ .word .in_ :: enclose a.pieces
  | .letIn _ bs a => .word .local_ :: bindingPieces bs ++ .word .in_ :: enclose a.pieces
  | .sequence _ es => .mark .lbrace :: listPieces .semicolon es ++ [.mark .rbrace]
  | .loop _ a b => .word .loop :: enclose a.pieces ++ .word .do_ :: enclose b.pieces
  | .whileDo _ a b => .word .while_ :: enclose a.pieces ++ .word .do_ :: enclose b.pieces
  | .doWhile _ a b => .word .do_ :: enclose b.pieces ++ .word .while_ :: enclose a.pieces
  | .ifThen _ a b c =>
    .word .if_ :: enclose a.pieces ++ .word .then_ :: enclose b.pieces ++ elsePieces c
  | .lambda _ xs a rest =>
    .mark .backslash :: listParams xs rest ++ .mark .arrow :: enclose a.pieces
  | .proc _ xs ys a =>
    .word .proc :: .mark .lparen :: listNames xs ++ .mark .rparen :: listNames ys ++
      .mark .arrow :: enclose a.pieces
  | .call _ f as => enclose f.pieces ++ .mark .lparen :: listPieces .comma as ++ [.mark .rparen]
  | .struct _ fs parent =>
    parentPieces parent ++ .mark .lbrace :: fieldPieces fs ++ [.mark .rbrace]
  | .member _ a x up => enclose a.pieces ++ List.replicate (up + 1) (.mark .dot) ++ [.name x]
  | .memberAssign _ x a => .mark .dot :: .name x :: .mark .assign :: enclose a.pieces
  | .this _ => [.word .this]
  | .importFile _ path => [.word .import_, ⟨.string, path⟩]
  | .trap _ => [.word .trap]

def listPieces (m : Mark) : List Expr → List Piece
  | [] => []
  | [a] => enclose a.pieces
  | a :: as => enclose a.pieces ++ .mark m :: listPieces m as

/-- `(k) : (v), (l) : (w)` -/
def entryPieces : List (Expr × Expr) → List Piece
  | [] => []
  | [(k, v)] => enclose k.pieces ++ .mark .colon :: enclose v.pieces
  | (k, v) :: es =>
    enclose k.pieces ++ .mark .colon :: enclose v.pieces ++ .mark .comma :: entryPieces es

/-- `x = (a), y = (b)` -/
def bindingPieces : List (Binding Expr) → List Piece
  | [] => []
  | [⟨_, x, a⟩] => .name x.name :: .mark .assign :: enclose a.pieces
  | ⟨_, x, a⟩ :: bs =>
    .name x.name :: .mark .assign :: enclose a.pieces ++ .mark .comma :: bindingPieces bs

/-- `.x = (a); .y = (b)` -/
def fieldPieces : List (Field Expr) → List Piece
  | [] => []
  | [⟨_, x, a⟩] => .mark .dot :: .name x :: .mark .assign :: enclose a.pieces
  | ⟨_, x, a⟩ :: fs =>
    .mark .dot :: .name x :: .mark .assign :: enclose a.pieces ++ .mark .semicolon :: fieldPieces fs

/-- `else (a)` -/
def elsePieces : Option Expr → List Piece
  | none => []
  | some a => .word .else_ :: enclose a.pieces

/-- `struct`, or `extend (a)` -/
def parentPieces : Option Expr → List Piece
  | none => [.word .struct]
  | some a => .word .extend :: enclose a.pieces

end

def print (e : Expr) : String := String.ofList (spell e.pieces)

/-! ## Printable expressions -/

mutual

def printable : Expr → Bool
  | .number _ s => isNumeral s
  | .bool _ _ | .this _ | .trap _ => true
  | .string _ s | .importFile _ s => isStringText s
  | .char _ s => isCharText s
  | .array _ es => listPrintable es
  | .dict _ es => entriesPrintable es
  | .unary _ _ a => a.printable
  | .binary _ _ a b | .index _ a b | .loop _ a b | .whileDo _ a b | .doWhile _ a b =>
    a.printable && b.printable
  | .assign _ (.var _ x) a => isName x && a.printable
  | .assign _ (.bare f) (.letIn _ [⟨_, .bare g, .lambda _ xs a rest⟩] (.var _ h)) =>
    f == g && f == h && isName f && xs.all isName && !(rest && xs.isEmpty) && a.printable
  | .assign _ (.bare _) _ => false
  | .var _ x => isName x
  | .lock _ xs a => xs.all isName && !xs.isEmpty && a.printable
  | .letIn _ bs a => bindingsPrintable bs && !bs.isEmpty && a.printable
  | .sequence _ es => listPrintable es && !es.isEmpty
  | .ifThen _ a b c => a.printable && b.printable && optionPrintable c
  | .lambda _ xs a rest => xs.all isName && !(rest && xs.isEmpty) && a.printable
  | .proc _ xs ys a => xs.all isName && ys.all isName && a.printable
  | .call _ f as => f.printable && listPrintable as
  | .struct _ fs parent => fieldsPrintable fs && optionPrintable parent
  | .member _ a x _ | .memberAssign _ x a => isName x && a.printable

def listPrintable : List Expr → Bool
  | [] => true
  | a :: as => a.printable && listPrintable as

def entriesPrintable : List (Expr × Expr) → Bool
  | [] => true
  | (k, v) :: es => k.printable && v.printable && entriesPrintable es

def bindingsPrintable : List (Binding Expr) → Bool
  | [] => true
  | ⟨_, .var _ x, a⟩ :: bs => isName x && a.printable && bindingsPrintable bs
  | ⟨_, .bare _, _⟩ :: _ => false

def fieldsPrintable : List (Field Expr) → Bool
  | [] => true
  | ⟨_, x, a⟩ :: fs => isName x && a.printable && fieldsPrintable fs

def optionPrintable : Option Expr → Bool
  | none => true
  | some a => a.printable

end

/-! ## Expressions without positions -/

end Expr

/-- No position. -/
def Pos.unknown : Pos := ⟨[], 0, 0⟩

def Target.unplaced : Target → Target
  | var _ x => var .unknown x
  | bare x => bare x

namespace Expr

mutual

def unplaced : Expr → Expr
  | .number _ s => .number .unknown s
  | .bool _ b => .bool .unknown b
  | .string _ s => .string .unknown s
  | .char _ s => .char .unknown s
  | .array _ es => .array .unknown (listUnplaced es)
  | .dict _ es => .dict .unknown (entriesUnplaced es)
  | .unary _ op a => .unary .unknown op a.unplaced
  | .binary _ op a b => .binary .unknown op a.unplaced b.unplaced
  | .index _ a b => .index .unknown a.unplaced b.unplaced
  | .assign _ x a => .assign .unknown x.unplaced a.unplaced
  | .var _ x => .var .unknown x
  | .lock _ xs a => .lock .unknown xs a.unplaced
  | .letIn _ bs a => .letIn .unknown (bindingsUnplaced bs) a.unplaced
  | .sequence _ es => .sequence .unknown (listUnplaced es)
  | .loop _ a b => .loop .unknown a.unplaced b.unplaced
  | .whileDo _ a b => .whileDo .unknown a.unplaced b.unplaced
  | .doWhile _ a b => .doWhile .unknown a.unplaced b.unplaced
  | .ifThen _ a b c => .ifThen .unknown a.unplaced b.unplaced (optionUnplaced c)
  | .lambda _ xs a rest => .lambda .unknown xs a.unplaced rest
  | .proc _ xs ys a => .proc .unknown xs ys a.unplaced
  | .call _ f as => .call .unknown f.unplaced (listUnplaced as)
  | .struct _ fs parent => .struct .unknown (fieldsUnplaced fs) (optionUnplaced parent)
  | .member _ a x up => .member .unknown a.unplaced x up
  | .memberAssign _ x a => .memberAssign .unknown x a.unplaced
  | .this _ => .this .unknown
  | .importFile _ path => .importFile .unknown path
  | .trap _ => .trap .unknown

def listUnplaced : List Expr → List Expr
  | [] => []
  | a :: as => a.unplaced :: listUnplaced as

def entriesUnplaced : List (Expr × Expr) → List (Expr × Expr)
  | [] => []
  | (k, v) :: es => (k.unplaced, v.unplaced) :: entriesUnplaced es

def bindingsUnplaced : List (Binding Expr) → List (Binding Expr)
  | [] => []
  | ⟨_, x, a⟩ :: bs => ⟨.unknown, x.unplaced, a.unplaced⟩ :: bindingsUnplaced bs

def fieldsUnplaced : List (Field Expr) → List (Field Expr)
  | [] => []
  | ⟨_, x, a⟩ :: fs => ⟨.unknown, x, a.unplaced⟩ :: fieldsUnplaced fs

def optionUnplaced : Option Expr → Option Expr
  | none => none
  | some a => some a.unplaced

end

end Expr

/-! ## Printed pieces can be spelled -/

section

open Piece

@[simp] theorem valid_word (w : Keyword) : (word w).valid = true := by simp [word, valid]

@[simp] theorem valid_mark (m : Mark) : (mark m).valid = true := by simp [mark, valid]

@[simp] theorem valid_name (x : String) : (name x).valid = isName x := rfl

@[simp] theorem UnOp.valid_piece (op : UnOp) : op.piece.valid = true := by cases op <;> rfl

@[simp] theorem BinOp.valid_piece (op : BinOp) : op.piece.valid = true := by cases op <;> rfl

@[simp] theorem all_enclose (ps : List Piece) : (enclose ps).all valid = ps.all valid := by
  simp [enclose]

@[simp] theorem all_listNames : ∀ xs : List String, (listNames xs).all valid = xs.all isName
  | [] | [_] => rfl
  | x :: y :: xs => by
    rw [listNames, List.all_cons, List.all_cons, all_listNames (y :: xs)]
    · simp
    · simp

@[simp] theorem all_listParams (xs : List String) (rest : Bool) :
    (listParams xs rest).all valid = xs.all isName := by
  cases rest <;> simp [listParams]

end

namespace Expr

mutual

theorem valid_pieces : ∀ {e : Expr}, e.printable = true → e.pieces.all Piece.valid = true
  | .number _ _, h | .string _ _, h | .char _ _, h => by
    simpa [pieces, Piece.valid, printable] using h
  | .var _ _, h => by simpa [pieces, printable] using h
  | .importFile _ path, h => by
    have hpath : (⟨.string, path⟩ : Piece).valid = true := h
    simp [pieces, hpath]
  | .bool _ _, _ | .this _, _ | .trap _, _ => by simp [pieces]
  | .array _ _, h => by
    rw [printable] at h
    simp [pieces, valid_listPieces .comma h]
  | .dict _ _, h => by
    rw [printable] at h
    simp [pieces, valid_entryPieces h]
  | .unary _ _ _, h => by
    rw [printable] at h
    simp [pieces, valid_pieces h]
  | .binary _ _ _ _, h | .index _ _ _, h | .loop _ _ _, h | .whileDo _ _ _, h
  | .doWhile _ _ _, h => by
    simp only [printable, Bool.and_eq_true] at h
    simp [pieces, valid_pieces h.1, valid_pieces h.2]
  | .assign _ (.var _ _) _, h | .member _ _ _ _, h | .memberAssign _ _ _, h => by
    simp only [printable, Bool.and_eq_true] at h
    simp [pieces, h.1, valid_pieces h.2]
  | .assign _ (.bare _) (.letIn _ [⟨_, .bare _, .lambda _ _ _ _⟩] (.var _ _)), h => by
    simp only [printable, Bool.and_eq_true] at h
    simp [pieces, h.1.1.1.2, h.1.1.2, valid_pieces h.2]
  | .lock _ _ _, h => by
    simp only [printable, Bool.and_eq_true] at h
    simp [pieces, h.1.1, valid_pieces h.2]
  | .letIn _ _ _, h => by
    simp only [printable, Bool.and_eq_true] at h
    simp [pieces, valid_bindingPieces h.1.1, valid_pieces h.2]
  | .sequence _ _, h => by
    simp only [printable, Bool.and_eq_true] at h
    simp [pieces, valid_listPieces .semicolon h.1]
  | .ifThen _ _ _ c, h => by
    simp only [printable, Bool.and_eq_true] at h
    simp [pieces, valid_pieces h.1.1, valid_pieces h.1.2, valid_elsePieces h.2]
  | .lambda _ _ _ _, h => by
    simp only [printable, Bool.and_eq_true] at h
    simp [pieces, h.1.1, valid_pieces h.2]
  | .proc _ _ _ _, h => by
    simp only [printable, Bool.and_eq_true] at h
    simp [pieces, h.1.1, h.1.2, valid_pieces h.2]
  | .call _ _ _, h => by
    simp only [printable, Bool.and_eq_true] at h
    simp [pieces, valid_pieces h.1, valid_listPieces .comma h.2]
  | .struct _ _ _, h => by
    simp only [printable, Bool.and_eq_true] at h
    simp [pieces, valid_fieldPieces h.1, valid_parentPieces h.2]

theorem valid_listPieces (m : Mark) :
    ∀ {es : List Expr}, listPrintable es = true → (listPieces m es).all Piece.valid = true
  | [], _ => rfl
  | [a], h => by
    simp only [listPrintable, Bool.and_eq_true] at h
    simp [listPieces, valid_pieces h.1]
  | a :: b :: es, h => by
    rw [listPrintable, Bool.and_eq_true] at h
    simp [listPieces, valid_pieces h.1, valid_listPieces m h.2]

theorem valid_entryPieces :
    ∀ {es : List (Expr × Expr)}, entriesPrintable es = true →
      (entryPieces es).all Piece.valid = true
  | [], _ => rfl
  | [(k, v)], h => by
    simp only [entriesPrintable, Bool.and_eq_true] at h
    simp [entryPieces, valid_pieces h.1.1, valid_pieces h.1.2]
  | (k, v) :: e :: es, h => by
    rw [entriesPrintable, Bool.and_eq_true, Bool.and_eq_true] at h
    simp [entryPieces, valid_pieces h.1.1, valid_pieces h.1.2, valid_entryPieces h.2]

theorem valid_bindingPieces :
    ∀ {bs : List (Binding Expr)}, bindingsPrintable bs = true →
      (bindingPieces bs).all Piece.valid = true
  | [], _ => rfl
  | [⟨_, .var _ x, a⟩], h => by
    simp only [bindingsPrintable, Bool.and_eq_true] at h
    simp [bindingPieces, Target.name, h.1.1, valid_pieces h.1.2]
  | ⟨_, .var _ x, a⟩ :: b :: bs, h => by
    rw [bindingsPrintable, Bool.and_eq_true, Bool.and_eq_true] at h
    simp [bindingPieces, Target.name, h.1.1, valid_pieces h.1.2, valid_bindingPieces h.2]

theorem valid_fieldPieces :
    ∀ {fs : List (Field Expr)}, fieldsPrintable fs = true →
      (fieldPieces fs).all Piece.valid = true
  | [], _ => rfl
  | [⟨_, x, a⟩], h => by
    simp only [fieldsPrintable, Bool.and_eq_true] at h
    simp [fieldPieces, h.1.1, valid_pieces h.1.2]
  | ⟨_, x, a⟩ :: f :: fs, h => by
    rw [fieldsPrintable, Bool.and_eq_true, Bool.and_eq_true] at h
    simp [fieldPieces, h.1.1, valid_pieces h.1.2, valid_fieldPieces h.2]

theorem valid_elsePieces :
    ∀ {c : Option Expr}, optionPrintable c = true → (elsePieces c).all Piece.valid = true
  | none, _ => rfl
  | some a, h => by simp [elsePieces, valid_pieces h]

theorem valid_parentPieces :
    ∀ {c : Option Expr}, optionPrintable c = true → (parentPieces c).all Piece.valid = true
  | none, _ => rfl
  | some a, h => by simp [parentPieces, valid_pieces h]

end

end Expr

end ExprLang
