/-
  Running the automaton.

  The machine holds a stack of states with the trees read so far and the tokens still to come.
  One step shifts a token or reduces a rule, until the whole text is one expression.

  Two rules are refused when they are about to be reduced (`refusal?`):

  * a member assignment with more than one dot sends the machine into recovery: all that was read
    is dropped together with the next token, and reading starts anew behind it.  The next three
    tokens shifted after that are on trial: if no step is possible while some of them are
    outstanding, the offending token is dropped in the same way, and at the end of the text there
    is no tree;
  * a `for` loop ends the run at once.

  When no step is possible and no token is on trial, the token is reported.  A character at which
  no token starts is reported as soon as it would be the next thing to read.
-/
import ExprLang.Token.Lexer
import ExprLang.Grammar.Table
import ExprLang.Grammar.Tree

namespace ExprLang.Grammar

/-- A state that was reached, and the tree that led there. -/
structure Frame where
  state : Nat
  tree : Tree

structure Machine where
  /-- The states reached so far, the latest first; below them is state 0. -/
  stack : List Frame
  /-- The tokens to come. -/
  input : List Token
  /-- What stands behind the tokens: a character at which no token starts, or the end. -/
  stop : Option Char
  /-- How many tokens on trial are outstanding. -/
  trial : Nat

/-- Why a rule is refused. -/
inductive Refusal where
  /-- A member assignment with more than one dot. -/
  | outerAssignment
  /-- A `for` loop. -/
  | forLoop
deriving DecidableEq, Repr

def refusal? : Rule → List Tree → Option Refusal
  | .memberAssignment, .node .dotsMore _ _ :: _ => some .outerAssignment
  | .forLoop, _ => some .forLoop
  | _, _ => none

/-- How a run ends. -/
inductive Outcome where
  | tree (t : Tree)
  /-- The text ended in recovery. -/
  | nothing
  /-- No step is possible before this token, or at the end of the text. -/
  | unexpected (t : Option Token)
  /-- No token starts with this character. -/
  | illegal (c : Char)
  | forLoop

/-- The effect of one step. -/
inductive Step where
  | next (m : Machine)
  | halt (o : Outcome)

namespace Machine

def start (text : Lexed) : Machine := ⟨[], text.tokens, text.illegal, 0⟩

def top : List Frame → Nat
  | [] => 0
  | f :: _ => f.state

/-- Drops all that was read and the next token. -/
def restart (m : Machine) : Machine := { m with stack := [], input := m.input.tail, trial := 3 }

/-- Applies a rule to the topmost trees. -/
def reduce (m : Machine) (rule : Rule) : Step :=
  let n := rule.rhs.length
  let children := ((m.stack.take n).map Frame.tree).reverse
  match refusal? rule children with
  | some .forLoop => .halt .forLoop
  | some .outerAssignment => .next m.restart
  | none =>
    let below := m.stack.drop n
    match (row (top below)).goto? rule.lhs with
    | some s => .next { m with stack := ⟨s, .apply rule children⟩ :: below }
    | none => .halt .nothing

/-- The machine stands before a token that nothing can be done with. -/
def reject (m : Machine) : Step :=
  if m.trial = 0 then .halt (.unexpected m.input.head?)
  else if m.input.isEmpty then .halt .nothing
  else .next m.restart

def step (m : Machine) : Step :=
  let here := row (top m.stack)
  match m.input, m.stop with
  | [], some c => .halt (.illegal c)
  | [], none =>
    match here.reduce? none with
    | some .start =>
      match m.stack with
      | [f] => .halt (.tree f.tree)
      | _ => .halt .nothing
    | some rule => m.reduce rule
    | none => m.reject
  | t :: rest, _ =>
    match here.shift? t.kind with
    | some s =>
      .next { m with stack := ⟨s, .leaf t⟩ :: m.stack, input := rest, trial := m.trial - 1 }
    | none =>
      match here.reduce? (some t.kind) with
      | some rule => m.reduce rule
      | none => m.reject

/-- At most `fuel` steps. -/
def run : Nat → Machine → Outcome
  | 0, _ => .nothing
  | fuel + 1, m =>
    match m.step with
    | .next m => run fuel m
    | .halt o => o

end Machine

/-- Enough steps for a text of `n` tokens: every token is shifted once, every shift makes at most
    one reduction of two or more trees possible, and at most three reductions of a single tree
    follow each of these. -/
def enough (n : Nat) : Nat := 16 * (n + 2)

def derive (text : Lexed) : Outcome := (Machine.start text).run (enough text.tokens.length)

end ExprLang.Grammar
