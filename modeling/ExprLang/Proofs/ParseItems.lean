/-
  What the states of the automaton stand for.

  In a state, some symbols of one or more rules have just been read.  `items` lists for each state
  which rules these are, and how many of their symbols; after an expression, every rule that starts
  with one may go on (`inside`).  The table of the automaton agrees with that:

  * `inside_transition`: a step to a state reads the next symbol of each rule that is listed there,
    and where a rule begins, its phrase is expected;
  * `reduce_checked`: a rule is only reduced where all of its symbols have been read.
-/
import ExprLang.Grammar.Table
import Mathlib.Tactic.ByContra
import Mathlib.Tactic.SplitIfs

namespace ExprLang.Grammar

variable {p s : Nat} {x : Symbol} {r : Rule} {look : Look}

def transition (p : Nat) : Symbol → Option Nat
  | .token k => (row p).shift? k
  | .phrase a => (row p).goto? a

/-- The rules for expressions that start with an expression. -/
def Rule.isInfix : Rule → Bool
  | binary _ | index | member | callNone | call => true
  | _ => false

/-- The rules in progress in each state, and how many of their symbols have been read. -/
def items : Array (List (Rule × Nat)) := #[
  -- 0
  [], [(.start, 1)], [(.number, 1)], [(.importFile, 1)], [(.string, 1)], [(.unary .plus, 1)],
  [(.unary .minus, 1)], [(.var, 1), (.assignment, 1)], [(.loop, 1)], [(.doWhile, 1)],
  -- 10
  [(.bool true, 1)], [(.bool false, 1)], [(.ofAssignment, 1)], [(.forLoop, 1)],
  [(.block, 1), (.dictEmpty, 1), (.dict, 1)], [(.whileDo, 1)], [(.char, 1)],
  [(.lambdaNone, 1), (.lambda, 1), (.lambdaRest, 1)], [(.dotsOne, 1), (.dotsMore, 1)],
  [(.unary .not, 1)],
  -- 20
  [(.structEmpty, 1), (.struct, 1)], [(.lock, 1)], [(.ifThen, 1), (.ifThenElse, 1)],
  [(.arrayEmpty, 1), (.array, 1)], [(.extendEmpty, 1), (.extend, 1)], [(.letIn, 1)],
  [(.trap, 1)], [(.functionNone, 1), (.function, 1), (.functionRest, 1)], [(.paren, 1)],
  [(.ownMember, 1), (.memberAssignment, 1)],
  -- 30
  [(.proc, 1), (.procLocals, 1), (.procParams, 1), (.procNone, 1)], [(.ofMemberAssignment, 1)],
  [(.this, 1)], [(.binary .plus, 2)], [(.binary .minus, 2)], [(.binary .times, 2)],
  [(.binary .divide, 2)], [(.binary .lt, 2)], [(.binary .gt, 2)], [(.binary .le, 2)],
  -- 40
  [(.binary .ge, 2)], [(.binary .eqs, 2)], [(.binary .neqs, 2)], [(.binary .eq, 2)],
  [(.binary .neq, 2)], [(.binary .and, 2)], [(.binary .or, 2)], [(.binary .nand, 2)],
  [(.binary .nor, 2)], [(.binary .imp, 2)],
  -- 50
  [(.binary .xor, 2)], [(.index, 2)], [(.member, 2)], [(.callNone, 2), (.call, 2)],
  [(.importFile, 2)], [(.unary .plus, 2)], [(.unary .minus, 2)], [(.assignment, 2)],
  [(.loop, 2)], [(.doWhile, 2)],
  -- 60
  [(.forLoop, 2)], [(.assignment, 1)], [(.block, 2), (.sequenceMore, 1)], [(.dictEmpty, 2)],
  [(.dict, 2)], [(.sequenceOne, 1), (.entry, 1)], [(.entriesOne, 1), (.entriesMore, 1)],
  [(.whileDo, 2)], [(.lambdaNone, 2)], [(.lambda, 2), (.lambdaRest, 2)],
  -- 70
  [(.namesOne, 1), (.namesMore, 1)], [(.dotsMore, 2)], [(.unary .not, 2)],
  [(.structEmpty, 2), (.struct, 2)], [(.lock, 2)], [(.ifThen, 2), (.ifThenElse, 2)],
  [(.arrayEmpty, 2)], [(.array, 2)], [(.argumentsOne, 1), (.argumentsMore, 1)],
  [(.extendEmpty, 2), (.extend, 2)],
  -- 80
  [(.letIn, 2)], [(.bindingsOne, 1), (.bindingsMore, 1)],
  [(.functionNone, 2), (.function, 2), (.functionRest, 2)], [(.paren, 2)],
  [(.ownMember, 2), (.memberAssignment, 2)],
  [(.proc, 2), (.procLocals, 2), (.procParams, 2), (.procNone, 2)], [(.binary .plus, 3)],
  [(.binary .minus, 3)], [(.binary .times, 3)], [(.binary .divide, 3)],
  -- 90
  [(.binary .lt, 3)], [(.binary .gt, 3)], [(.binary .le, 3)], [(.binary .ge, 3)],
  [(.binary .eqs, 3)], [(.binary .neqs, 3)], [(.binary .eq, 3)], [(.binary .neq, 3)],
  [(.binary .and, 3)], [(.binary .or, 3)],
  -- 100
  [(.binary .nand, 3)], [(.binary .nor, 3)], [(.binary .imp, 3)], [(.binary .xor, 3)],
  [(.index, 3)], [(.member, 3)], [(.callNone, 3)], [(.call, 3)], [(.assignment, 3)],
  [(.loop, 3)],
  -- 110
  [(.doWhile, 3)], [(.forLoop, 3)], [(.block, 3)], [(.sequenceMore, 2)], [(.dict, 3)],
  [(.entry, 2)], [(.entriesMore, 2)], [(.whileDo, 3)], [(.lambdaNone, 3)], [(.lambda, 3)],
  -- 120
  [(.lambdaRest, 3)], [(.namesMore, 2)], [(.structEmpty, 3)], [(.struct, 3)],
  [(.fieldsOne, 1), (.fieldsMore, 1)], [(.field, 1)], [(.settableField, 1)],
  [(.memberAssignment, 1)], [(.lock, 3)], [(.ifThen, 3), (.ifThenElse, 3)],
  -- 130
  [(.array, 3)], [(.argumentsMore, 2)], [(.extendEmpty, 3), (.extend, 3)], [(.letIn, 3)],
  [(.bindingsMore, 2)], [(.functionNone, 3)], [(.function, 3), (.functionRest, 3)],
  [(.paren, 3)], [(.memberAssignment, 3)], [(.proc, 3), (.procParams, 3)],
  -- 140
  [(.procLocals, 3), (.procNone, 3)], [(.index, 4)], [(.call, 4)], [(.loop, 4)], [(.doWhile, 4)],
  [(.forLoop, 4)], [(.sequenceMore, 3)], [(.entry, 3)], [(.entriesMore, 3)], [(.entry, 1)],
  -- 150
  [(.whileDo, 4)], [(.lambda, 4)], [(.lambdaRest, 4)], [(.namesMore, 3)], [(.struct, 4)],
  [(.fieldsMore, 2)], [(.settableField, 2)], [(.memberAssignment, 2)], [(.lock, 4)],
  [(.ifThen, 4), (.ifThenElse, 4)],
  -- 160
  [(.argumentsMore, 3)], [(.extendEmpty, 4)], [(.extend, 4)], [(.letIn, 4)],
  [(.bindingsMore, 3)], [(.functionNone, 4)], [(.function, 4)], [(.functionRest, 4)],
  [(.memberAssignment, 4)], [(.proc, 4), (.procParams, 4)],
  -- 170
  [(.procLocals, 4)], [(.procNone, 4)], [(.forLoop, 5)], [(.lambdaRest, 5)], [(.fieldsMore, 3)],
  [(.ifThenElse, 5)], [(.extend, 5)], [(.function, 5)], [(.functionRest, 5)], [(.proc, 5)],
  -- 180
  [(.procParams, 5)], [(.procLocals, 5)], [(.procNone, 5)], [(.forLoop, 6)], [(.lambdaRest, 6)],
  [(.ifThenElse, 6)], [(.functionRest, 6)], [(.proc, 6)], [(.procParams, 6)], [(.procLocals, 6)],
  -- 190
  [(.forLoop, 7)], [(.lambdaRest, 7)], [(.functionRest, 7)], [(.proc, 7)], [(.forLoop, 8)],
  [(.functionRest, 8)]]

/-- An expression has just been read. -/
def afterExpression (s : Nat) : Bool := (row s).goto? .dots == some 52

/-- In the state `s`, the first `i` symbols of the rule have just been read. -/
def inside (s : Nat) (r : Rule) (i : Nat) : Bool :=
  (items.getD s []).contains (r, i) || i == 1 && r.isInfix && afterExpression s

def begins (p : Nat) (r : Rule) : Bool :=
  if r == .start then p == 0 else ((row p).goto? r.lhs).isSome

/-- The first `i` symbols of the rule have just been read, or it may begin. -/
def reached (p : Nat) (r : Rule) (i : Nat) : Bool := if i == 0 then begins p r else inside p r i

/-- In the state `p`, the symbol `x` comes next after `i` symbols of the rule. -/
def continues (p : Nat) (x : Symbol) (r : Rule) (i : Nat) : Bool :=
  r.rhs[i]? == some x && reached p r i

def Row.edges (r : Row) : List (Symbol × Nat) :=
  r.shifts.map (fun e => (.token e.1, e.2)) ++ r.gotos.map fun e => (.phrase e.1, e.2)

/-- How the items fit the table. -/
structure ItemFacts : Prop where
  edges : (List.range 196).all (fun p => (row p).edges.all fun (x, s) =>
    s != 0 && (items.getD s []).all (fun (r, i) => i != 0 && continues p x r (i - 1)) &&
      (!afterExpression s || x == .phrase .expression)) = true
  reduces : (List.range 196).all (fun p => (row p).reduce.all fun (r, looks) =>
    inside p r r.rhs.length && (r != .start || looks == [none])) = true
  zero : items.getD 0 [] = [] ∧ afterExpression 0 = false

theorem itemFacts : ItemFacts where
  edges := by decide +kernel
  reduces := by decide +kernel
  zero := by decide +kernel

theorem row_eq (hp : 196 ≤ p) : row p = ⟨[], none, []⟩ := by
  rw [row, Array.getD_eq_getD_getElem?, Array.getElem?_eq_none (by exact hp)]
  rfl

theorem mem_edges (h : transition p x = some s) : (x, s) ∈ (row p).edges := by
  generalize hr : row p = r
  cases x with
  | token k =>
    rw [transition, hr, Row.shift?] at h
    obtain ⟨l₁, l₂, hl, -⟩ := List.lookup_eq_some_iff.1 h
    simp [Row.edges, hl]
  | phrase a =>
    rw [transition, hr, Row.goto?] at h
    obtain ⟨l₁, l₂, hl, -⟩ := List.lookup_eq_some_iff.1 h
    simp [Row.edges, hl]

theorem lt_of_transition (h : transition p x = some s) : p < 196 := by
  by_contra hp
  have hm := mem_edges h
  rw [row_eq (Nat.not_lt.1 hp)] at hm
  simp [Row.edges] at hm

theorem edge_checked (h : transition p x = some s) :
    s ≠ 0 ∧ (∀ r i, (r, i) ∈ items.getD s [] → i ≠ 0 ∧ continues p x r (i - 1) = true) ∧
      (afterExpression s = true → x = .phrase .expression) := by
  have hp := List.all_eq_true.1 (ItemFacts.edges itemFacts) p
    (List.mem_range.2 (lt_of_transition h))
  have he := List.all_eq_true.1 hp _ (mem_edges h)
  simp only [Bool.and_eq_true, bne_iff_ne, ne_eq, List.all_eq_true, Bool.or_eq_true,
    Bool.not_eq_true', beq_iff_eq] at he
  obtain ⟨⟨h₀, h₁⟩, h₂⟩ := he
  refine ⟨h₀, fun r i hi => h₁ (r, i) hi, fun ha => h₂.resolve_left ?_⟩
  rw [ha]; simp

/-- A step to a state reads the next symbol of every rule in progress there. -/
theorem inside_transition {i : Nat} (h : transition p x = some s) (hi : inside s r (i + 1) = true) :
    continues p x r i = true := by
  obtain ⟨-, hitems, hexpr⟩ := edge_checked h
  rw [inside, Bool.or_eq_true] at hi
  rcases hi with hi | hi
  · exact (hitems r (i + 1) (List.contains_iff_mem.1 hi)).2
  · simp only [Bool.and_eq_true, beq_iff_eq] at hi
    obtain ⟨⟨hi, hr⟩, ha⟩ := hi
    obtain rfl : i = 0 := by omega
    obtain rfl := hexpr ha
    have hg : (row p).goto? .expression = some s := h
    cases r <;> cases hr <;> simp [continues, reached, begins, Rule.rhs, Rule.lhs, hg]

theorem Row.of_reduce? {w : Row} (h : w.reduce? look = some r) :
    ∃ looks, w.reduce = some (r, looks) ∧ look ∈ looks := by
  rw [Row.reduce?, Option.bind_eq_some_iff] at h
  obtain ⟨⟨r', looks⟩, hr, h⟩ := h
  dsimp only at h
  split_ifs at h with hlook
  cases h
  exact ⟨looks, hr, List.contains_iff_mem.1 hlook⟩

theorem lt_of_reduce? (h : (row p).reduce? look = some r) : p < 196 := by
  by_contra hp
  rw [row_eq (Nat.not_lt.1 hp)] at h
  cases h

/-- A rule is only reduced where all of its symbols have been read, and the rule for the whole text
    only at its end. -/
theorem reduce_checked (h : (row p).reduce? look = some r) :
    inside p r r.rhs.length = true ∧ (r = .start → look = none) := by
  have hc := List.all_eq_true.1 (ItemFacts.reduces itemFacts) p (List.mem_range.2 (lt_of_reduce? h))
  obtain ⟨looks, hr, hlook⟩ := Row.of_reduce? h
  rw [hr] at hc
  simp only [Option.all_some, Bool.and_eq_true, Bool.or_eq_true, bne_iff_ne, beq_iff_eq] at hc
  refine ⟨hc.1, fun hs => ?_⟩
  have hnone := hc.2.resolve_left (not_not_intro hs)
  simpa [hnone] using hlook

theorem not_inside_zero (r : Rule) (i : Nat) : inside 0 r i = false := by
  rw [inside, (ItemFacts.zero itemFacts).1, (ItemFacts.zero itemFacts).2]
  simp

end ExprLang.Grammar
