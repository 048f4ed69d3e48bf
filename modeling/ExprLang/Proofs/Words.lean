/-
  Words, and what operators do to them.

  The words of both machines are idealised to integers without bounds.  The operators of the source
  language are read on integers too: a truth value is one or zero.  The code chosen for an operator
  computes what the operator says (`unaryOp_apply`, `binaryOp_apply`).

  The address of an instruction is its position in the program, so that an operand that names a
  label stands for a word as well.
-/
import ExprLang.CMa.Generate
import ExprLang.Text.Digit
import ExprLang.Proofs.Placement

namespace ExprLang

/-- The integer that a literal made of digits stands for. -/
def integer? (text : String) : Option Int :=
  if text.toList ≠ [] ∧ text.toList.all Text.isDigit then
    some (text.toList.foldl (fun n c => 10 * n + (Text.digit? c).getD 0) 0 : Nat)
  else none

/-! ## Operands -/

section
variable {ι : Type} (name? : ι → Option String) (P : List ι)

/-- The position of the label that an operand names. -/
def target? : Cell → Option Nat
  | .text l => position? name? P l
  | _ => none

/-- The word that an operand stands for: a number, or the position of a label. -/
def word? : Cell → Option Int
  | .int i => some i
  | .text s => (integer? s).or ((position? name? P s).map (↑))
  | _ => none

end

/-! ## Operators -/

def truthWord (p : Prop) [Decidable p] : Int := if p then 1 else 0

/-- What the machine computes from one word. -/
def CMa.UnaryOp.apply : CMa.UnaryOp → Int → Int
  | neg, a => -a
  | inc, a => a + 1
  | dec, a => a - 1

/-- What the machine computes from two words; there is no quotient by zero. -/
def CMa.BinaryOp.apply : CMa.BinaryOp → Int → Int → Option Int
  | add, a, b => some (a + b)
  | sub, a, b => some (a - b)
  | mul, a, b => some (a * b)
  | div, a, b => if b = 0 then none else some (a.tdiv b)
  | le, a, b => some (truthWord (a < b))
  | gr, a, b => some (truthWord (b < a))
  | leq, a, b => some (truthWord (a ≤ b))
  | geq, a, b => some (truthWord (b ≤ a))
  | eq, a, b => some (truthWord (a = b))
  | neq, a, b => some (truthWord (a ≠ b))

/-- What an operator before an operand says about integers. -/
def UnOp.onIntegers? : UnOp → Option (Int → Int)
  | minus => some fun a => -a
  | _ => none

/-- What an operator between operands says about integers. -/
def BinOp.onIntegers? : BinOp → Option (Int → Int → Int)
  | plus => some fun a b => a + b
  | minus => some fun a b => a - b
  | times => some fun a b => a * b
  | lt => some fun a b => if a < b then 1 else 0
  | gt => some fun a b => if a > b then 1 else 0
  | le => some fun a b => if a ≤ b then 1 else 0
  | ge => some fun a b => if a ≥ b then 1 else 0
  | eqs => some fun a b => if a = b then 1 else 0
  | neqs => some fun a b => if a = b then 0 else 1
  | _ => none

theorem unaryOp_apply {op : UnOp} {o : CMa.UnaryOp} {f : Int → Int}
    (h : CMa.unaryOp op = .ok o) (hf : op.onIntegers? = some f) (a : Int) : o.apply a = f a := by
  cases op <;> cases hf
  cases h; rfl

theorem binaryOp_apply {op : BinOp} {o : CMa.BinaryOp} {f : Int → Int → Int}
    (h : CMa.binaryOp op = .ok o) (hf : op.onIntegers? = some f) (a b : Int) :
    o.apply a b = some (f a b) := by
  cases op <;> cases hf <;> cases h <;> simp [CMa.BinaryOp.apply, truthWord]

end ExprLang
