/-
  The automaton of the grammar.

  The automaton has 196 states.  In each state a row says which tokens are shifted, before which
  tokens a rule is reduced, and where to go on after a phrase.  The ambiguities of the grammar are
  settled here: operators bind by their level (`operators`), equal levels group to the left, and
  everything that ends in an expression reaches as far to the right as it can.

  Most rows have one of a few shapes: an expression is expected (`expecting`), one has been read
  and an operator may follow (`operand`, `operandEnd`, `operandUntil`), or a rule is complete
  whatever follows (`complete`).
-/
import ExprLang.Grammar

namespace ExprLang.Grammar

/-- The next token's kind, or `none` at the end of the text. -/
abbrev Look := Option Kind

/-- One state of the automaton. -/
structure Row where
  /-- The tokens that are shifted, and the states after them. -/
  shifts : List (Kind × Nat)
  /-- The rule that is reduced, and what must follow for that. -/
  reduce : Option (Rule × List Look)
  /-- The states after the phrases. -/
  gotos : List (Phrase × Nat)

def starts : List (Kind × Nat) := [
  (.number, 2), (.word .import_, 3), (.string, 4), (.mark .plus, 5), (.mark .minus, 6),
  (.ident, 7), (.word .loop, 8), (.word .do_, 9), (.word .true_, 10), (.word .false_, 11),
  (.word .for_, 13), (.mark .lbrace, 14), (.word .while_, 15), (.char, 16),
  (.mark .backslash, 17), (.mark .dot, 18), (.word .not, 19), (.word .struct, 20),
  (.word .lock, 21), (.word .if_, 22), (.mark .lbracket, 23), (.word .extend, 24),
  (.word .local_, 25), (.word .trap, 26), (.word .fun_, 27), (.mark .lparen, 28),
  (.word .proc, 30), (.word .this, 32)]

/-- The tokens that go on after an operand: level, token and state.  The higher level binds
    tighter. -/
def operators : List (Nat × Kind × Nat) := [
  (1, .word .or, 46), (1, .word .nor, 48), (1, .word .xor, 50), (2, .word .imp, 49),
  (3, .word .and, 45), (3, .word .nand, 47), (4, .mark .eqs, 41), (4, .mark .neqs, 42),
  (4, .word .eq, 43), (4, .word .neq, 44), (5, .mark .lt, 37), (5, .mark .gt, 38),
  (5, .mark .le, 39), (5, .mark .ge, 40), (6, .mark .plus, 33), (6, .mark .minus, 34),
  (7, .mark .times, 35), (7, .mark .divide, 36), (8, .mark .dot, 18), (8, .mark .lbracket, 51),
  (8, .mark .lparen, 53)]

/-- The tokens that end an expression. -/
def closers : List Kind := [
  .mark .colon, .mark .comma, .word .do_, .word .else_, .word .in_, .mark .lbrace, .mark .rbrace,
  .mark .rbracket, .mark .rparen, .mark .semicolon, .word .then_, .word .while_]

/-- The operators that bind tighter than `level`. -/
def tighter (level : Nat) : List (Kind × Nat) :=
  (operators.filter (level < ·.1)).map (·.2)

/-- What may follow an expression whose last operator has the given level, and ends it. -/
def ending (level : Nat) : List Look :=
  none :: (closers ++ (operators.filter (·.1 ≤ level)).map (·.2.1)).map some

def follow : List Look := ending 8

/-- An expression is expected, or one of the tokens in `shifts`. -/
def expectingOr (state : Nat) (shifts : List (Kind × Nat)) (gotos : List (Phrase × Nat)) : Row :=
  ⟨starts ++ shifts, none,
    (.expression, state) :: (.assignment, 12) :: (.dots, 29) :: (.memberAssignment, 31) :: gotos⟩

def expecting (state : Nat) : Row := expectingOr state [] []

/-- After an operand: an operator, or one of the tokens in `shifts`. -/
def operand (shifts : List (Kind × Nat)) : Row := ⟨tighter 0 ++ shifts, none, [(.dots, 52)]⟩

/-- After the last operand of `rule`: a tighter operator, or the rule is complete. -/
def operandEnd (level : Nat) (rule : Rule) : Row :=
  ⟨tighter level, some (rule, ending level), [(.dots, 52)]⟩

/-- After the last operand of `rule`: an operator or one of the tokens in `shifts`, or the rule is
    complete before `looks`. -/
def operandUntil (rule : Rule) (looks : List Look) (shifts : List (Kind × Nat)) : Row :=
  ⟨tighter 0 ++ shifts, some (rule, looks), [(.dots, 52)]⟩

/-- The rule is complete, unless one of the tokens in `shifts` follows. -/
def completeOr (shifts : List (Kind × Nat)) (rule : Rule) : Row := ⟨shifts, some (rule, follow), []⟩

def complete (rule : Rule) : Row := completeOr [] rule

def completeBefore (rule : Rule) (kinds : List Kind) : Row := ⟨[], some (rule, kinds.map some), []⟩

/-- Only the given tokens and phrases go on. -/
def only (shifts : List (Kind × Nat)) (gotos : List (Phrase × Nat)) : Row := ⟨shifts, none, gotos⟩

/-- One of the tokens in `shifts` follows, or the rule is complete before one of `kinds`. -/
def shiftOr (shifts : List (Kind × Nat)) (rule : Rule) (kinds : List Kind)
    (gotos : List (Phrase × Nat)) : Row :=
  ⟨shifts, some (rule, kinds.map some), gotos⟩

def rows : Array Row := #[
  -- 0
  expecting 1,
  operandUntil .start [none] [],
  complete .number,
  only [(.string, 54)] [],
  complete .string,
  expecting 55,
  expecting 56,
  completeOr [(.mark .assign, 57)] .var,
  expecting 58,
  expecting 59,
  -- 10
  complete (.bool true),
  complete (.bool false),
  complete .ofAssignment,
  only [(.ident, 61)] [(.assignment, 60)],
  expectingOr 65 [(.mark .rbrace, 63)] [(.entry, 66), (.entries, 64), (.sequence, 62)],
  expecting 67,
  complete .char,
  only [(.ident, 70), (.mark .arrow, 68)] [(.names, 69)],
  shiftOr [(.mark .dot, 18)] .dotsOne [.ident] [(.dots, 71)],
  expecting 72,
  -- 20
  only [(.mark .lbrace, 73)] [],
  only [(.ident, 70)] [(.names, 74)],
  expecting 75,
  expectingOr 78 [(.mark .rbracket, 76)] [(.arguments, 77)],
  expecting 79,
  only [(.ident, 61)] [(.assignment, 81), (.bindings, 80)],
  complete .trap,
  only [(.ident, 82)] [],
  expecting 83,
  only [(.ident, 84)] [],
  -- 30
  only [(.mark .lparen, 85)] [],
  complete .ofMemberAssignment,
  complete .this,
  expecting 86,
  expecting 87,
  expecting 88,
  expecting 89,
  expecting 90,
  expecting 91,
  expecting 92,
  -- 40
  expecting 93,
  expecting 94,
  expecting 95,
  expecting 96,
  expecting 97,
  expecting 98,
  expecting 99,
  expecting 100,
  expecting 101,
  expecting 102,
  -- 50
  expecting 103,
  expecting 104,
  only [(.ident, 105)] [],
  expectingOr 78 [(.mark .rparen, 106)] [(.arguments, 107)],
  complete .importFile,
  operandEnd 7 (.unary .plus),
  operandEnd 7 (.unary .minus),
  expecting 108,
  operand [(.word .do_, 109)],
  operand [(.word .while_, 110)],
  -- 60
  only [(.mark .semicolon, 111)] [],
  only [(.mark .assign, 57)] [],
  only [(.mark .rbrace, 112), (.mark .semicolon, 113)] [],
  complete .dictEmpty,
  only [(.mark .rbrace, 114)] [],
  operandUntil .sequenceOne [some (.mark .rbrace), some (.mark .semicolon)] [(.mark .colon, 115)],
  shiftOr [(.mark .comma, 116)] .entriesOne [.mark .rbrace] [],
  operand [(.word .do_, 117)],
  expecting 118,
  only [(.mark .dot, 120), (.mark .arrow, 119)] [],
  -- 70
  shiftOr [(.mark .comma, 121)] .namesOne [.mark .dot, .word .in_, .mark .arrow, .mark .rparen]
    [],
  completeBefore .dotsMore [.ident],
  operandEnd 7 (.unary .not),
  only [(.mark .dot, 18), (.mark .rbrace, 122), (.word .set, 126)] [(.dots, 127), (.field, 124),
    (.fields, 123), (.memberAssignment, 125)],
  only [(.word .in_, 128)] [],
  operand [(.word .then_, 129)],
  complete .arrayEmpty,
  only [(.mark .rbracket, 130)] [],
  operandUntil .argumentsOne [some (.mark .rbracket), some (.mark .rparen)] [(.mark .comma, 131)],
  operand [(.mark .lbrace, 132)],
  -- 80
  only [(.word .in_, 133)] [],
  shiftOr [(.mark .comma, 134)] .bindingsOne [.word .in_] [],
  only [(.ident, 70), (.mark .arrow, 135)] [(.names, 136)],
  operand [(.mark .rparen, 137)],
  completeOr [(.mark .assign, 138)] .ownMember,
  only [(.ident, 70), (.mark .rparen, 140)] [(.names, 139)],
  operandEnd 6 (.binary .plus),
  operandEnd 6 (.binary .minus),
  operandEnd 7 (.binary .times),
  operandEnd 7 (.binary .divide),
  -- 90
  operandEnd 5 (.binary .lt),
  operandEnd 5 (.binary .gt),
  operandEnd 5 (.binary .le),
  operandEnd 5 (.binary .ge),
  operandEnd 4 (.binary .eqs),
  operandEnd 4 (.binary .neqs),
  operandEnd 4 (.binary .eq),
  operandEnd 4 (.binary .neq),
  operandEnd 3 (.binary .and),
  operandEnd 1 (.binary .or),
  -- 100
  operandEnd 3 (.binary .nand),
  operandEnd 1 (.binary .nor),
  operandEnd 2 (.binary .imp),
  operandEnd 1 (.binary .xor),
  operand [(.mark .rbracket, 141)],
  complete .member,
  complete .callNone,
  only [(.mark .rparen, 142)] [],
  operandEnd 0 .assignment,
  expecting 143,
  -- 110
  expecting 144,
  expecting 145,
  complete .block,
  expecting 146,
  complete .dict,
  expecting 147,
  expectingOr 149 [] [(.entry, 66), (.entries, 148)],
  expecting 150,
  operandEnd 0 .lambdaNone,
  expecting 151,
  -- 120
  only [(.mark .dot, 152)] [],
  only [(.ident, 70)] [(.names, 153)],
  complete .structEmpty,
  only [(.mark .rbrace, 154)] [],
  shiftOr [(.mark .semicolon, 155)] .fieldsOne [.mark .rbrace] [],
  completeBefore .field [.mark .rbrace, .mark .semicolon],
  only [(.mark .dot, 18)] [(.dots, 127), (.memberAssignment, 156)],
  only [(.ident, 157)] [],
  expecting 158,
  expecting 159,
  -- 130
  complete .array,
  expectingOr 78 [] [(.arguments, 160)],
  only [(.mark .dot, 18), (.mark .rbrace, 161), (.word .set, 126)] [(.dots, 127), (.field, 124),
    (.fields, 162), (.memberAssignment, 125)],
  expecting 163,
  only [(.ident, 61)] [(.assignment, 81), (.bindings, 164)],
  expecting 165,
  only [(.mark .dot, 167), (.mark .arrow, 166)] [],
  complete .paren,
  expecting 168,
  only [(.mark .rparen, 169)] [],
  -- 140
  only [(.ident, 70), (.mark .arrow, 171)] [(.names, 170)],
  complete .index,
  complete .call,
  operandEnd 0 .loop,
  operandEnd 0 .doWhile,
  operand [(.mark .semicolon, 172)],
  operandUntil .sequenceMore [some (.mark .rbrace), some (.mark .semicolon)] [],
  operandUntil .entry [some (.mark .comma), some (.mark .rbrace)] [],
  completeBefore .entriesMore [.mark .rbrace],
  operand [(.mark .colon, 115)],
  -- 150
  operandEnd 0 .whileDo,
  operandEnd 0 .lambda,
  only [(.mark .dot, 173)] [],
  completeBefore .namesMore [.mark .dot, .word .in_, .mark .arrow, .mark .rparen],
  complete .struct,
  only [(.mark .dot, 18), (.word .set, 126)] [(.dots, 127), (.field, 124), (.fields, 174),
    (.memberAssignment, 125)],
  completeBefore .settableField [.mark .rbrace, .mark .semicolon],
  only [(.mark .assign, 138)] [],
  operandEnd 0 .lock,
  operandUntil .ifThen ((ending 0).erase (some (.word .else_))) [(.word .else_, 175)],
  -- 160
  completeBefore .argumentsMore [.mark .rbracket, .mark .rparen],
  complete .extendEmpty,
  only [(.mark .rbrace, 176)] [],
  operandEnd 0 .letIn,
  completeBefore .bindingsMore [.word .in_],
  operandEnd 0 .functionNone,
  expecting 177,
  only [(.mark .dot, 178)] [],
  operandEnd 0 .memberAssignment,
  only [(.ident, 70), (.mark .arrow, 180)] [(.names, 179)],
  -- 170
  only [(.mark .arrow, 181)] [],
  expecting 182,
  only [(.ident, 61)] [(.assignment, 183)],
  only [(.mark .arrow, 184)] [],
  completeBefore .fieldsMore [.mark .rbrace],
  expecting 185,
  complete .extend,
  operandEnd 0 .function,
  only [(.mark .dot, 186)] [],
  only [(.mark .arrow, 187)] [],
  -- 180
  expecting 188,
  expecting 189,
  operandEnd 0 .procNone,
  only [(.word .do_, 190)] [],
  expecting 191,
  operandEnd 0 .ifThenElse,
  only [(.mark .arrow, 192)] [],
  expecting 193,
  operandEnd 0 .procParams,
  operandEnd 0 .procLocals,
  -- 190
  expecting 194,
  operandEnd 0 .lambdaRest,
  expecting 195,
  operandEnd 0 .proc,
  operandEnd 0 .forLoop,
  operandEnd 0 .functionRest]

def row (state : Nat) : Row := rows.getD state ⟨[], none, []⟩

/-- The state after shifting a token. -/
def Row.shift? (r : Row) (k : Kind) : Option Nat := r.shifts.lookup k

def Row.reduce? (r : Row) (look : Look) : Option Rule :=
  r.reduce.bind fun (rule, looks) => if looks.contains look then some rule else none

def Row.goto? (r : Row) (p : Phrase) : Option Nat := r.gotos.lookup p

end ExprLang.Grammar
