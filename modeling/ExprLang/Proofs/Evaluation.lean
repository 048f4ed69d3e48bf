/-
  Evaluation with integers.

  These are the rules of evaluation for the expressions that the CMa computes with, in an idealised
  form: every number is an integer without bounds, a truth value is one or zero, and so is what has
  no result, which counts as zero.  The store says what the variables hold; a variable that was
  never assigned holds nothing, and an expression that reads it has no value.

  A loop has no value if its count is negative.
-/
import ExprLang.Proofs.Words

namespace ExprLang

/-- What the variables hold. -/
abbrev Store := String → Option Int

def Store.set (S : Store) (x : String) (v : Int) : Store := fun y => if y = x then some v else S y

mutual

/-- Evaluated in the store `S`, the expression gives a value and leaves another store. -/
inductive Evaluates : Store → Expr → Int → Store → Prop where
  | number {S p text n} (h : integer? text = some n) : Evaluates S (.number p text) n S
  | unary {S p op a v f S'} (ha : Evaluates S a v S') (hf : op.onIntegers? = some f) :
      Evaluates S (.unary p op a) (f v) S'
  | binary {S p op a b v w f S₁ S₂} (ha : Evaluates S a v S₁) (hb : Evaluates S₁ b w S₂)
      (hf : op.onIntegers? = some f) : Evaluates S (.binary p op a b) (f v w) S₂
  | assign {S p q x a v S'} (ha : Evaluates S a v S') :
      Evaluates S (.assign p (.var q x) a) v (S'.set x v)
  | var {S p x v} (h : S x = some v) : Evaluates S (.var p x) v S
  | sequence {S p es v S'} (h : EvaluatesAll S 0 es v S') : Evaluates S (.sequence p es) v S'
  | ifTrue {S p c a b k v S₁ S₂} (hc : Evaluates S c k S₁) (hk : k ≠ 0)
      (ha : Evaluates S₁ a v S₂) : Evaluates S (.ifThen p c a b) v S₂
  | ifFalse {S p c a b v S₁ S₂} (hc : Evaluates S c 0 S₁) (hb : Evaluates S₁ b v S₂) :
      Evaluates S (.ifThen p c a (some b)) v S₂
  | ifNothing {S p c a S'} (hc : Evaluates S c 0 S') : Evaluates S (.ifThen p c a none) 0 S'
  | whileDo {S p c a v S'} (h : EvaluatesWhile S 0 c a v S') : Evaluates S (.whileDo p c a) v S'
  | loop {S p n a k v S₁ S₂} (hn : Evaluates S n (k : Nat) S₁)
      (h : EvaluatesTimes S₁ 0 k a v S₂) : Evaluates S (.loop p n a) v S₂

/-- Evaluates some expressions in order; `last` is the result so far. -/
inductive EvaluatesAll : Store → Int → List Expr → Int → Store → Prop where
  | nil {S last} : EvaluatesAll S last [] last S
  | cons {S last a es w v S₁ S₂} (ha : Evaluates S a w S₁) (h : EvaluatesAll S₁ w es v S₂) :
      EvaluatesAll S last (a :: es) v S₂

/-- Evaluates an expression while a condition holds; `last` is the result so far. -/
inductive EvaluatesWhile : Store → Int → Expr → Expr → Int → Store → Prop where
  | stop {S last c a S'} (hc : Evaluates S c 0 S') : EvaluatesWhile S last c a last S'
  | go {S last c a k w v S₁ S₂ S₃} (hc : Evaluates S c k S₁) (hk : k ≠ 0)
      (ha : Evaluates S₁ a w S₂) (h : EvaluatesWhile S₂ w c a v S₃) :
      EvaluatesWhile S last c a v S₃

/-- Evaluates an expression a number of times; `last` is the result so far. -/
inductive EvaluatesTimes : Store → Int → Nat → Expr → Int → Store → Prop where
  | zero {S last a} : EvaluatesTimes S last 0 a last S
  | succ {S last n a w v S₁ S₂} (ha : Evaluates S a w S₁) (h : EvaluatesTimes S₁ w n a v S₂) :
      EvaluatesTimes S last (n + 1) a v S₂

end

end ExprLang
