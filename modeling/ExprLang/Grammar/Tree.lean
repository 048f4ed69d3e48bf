/-
  Derivation trees.

  A tree records which rule was applied where, and the lines that its tokens stand on.
-/
import ExprLang.Grammar

namespace ExprLang.Grammar

/-- The first and the last line of something. -/
structure Lines where
  first : Nat
  last : Nat
deriving DecidableEq, Repr

/-- A token, or a rule applied to what its right side consists of. -/
inductive Tree where
  | leaf (t : Token)
  | node (rule : Rule) (lines : Lines) (children : List Tree)

namespace Tree

def lines : Tree → Lines
  | leaf t => ⟨t.line, t.line⟩
  | node _ ls _ => ls

def symbol : Tree → Symbol
  | leaf t => .token t.kind
  | node r _ _ => .phrase r.lhs

def linesOf (ts : List Tree) : Lines :=
  match ts.head?, ts.getLast? with
  | some a, some b => ⟨a.lines.first, b.lines.last⟩
  | _, _ => ⟨0, 0⟩

def apply (rule : Rule) (children : List Tree) : Tree := node rule (linesOf children) children

mutual

def tokens : Tree → List Token
  | leaf t => [t]
  | node _ _ ts => tokensOf ts

def tokensOf : List Tree → List Token
  | [] => []
  | t :: ts => t.tokens ++ tokensOf ts

end

end Tree

end ExprLang.Grammar
