/-
  Reading rules by the table.

  Most phrases are read to their end: what follows them reduces all that is open (`closes`).
  `reads` follows the table over the symbols of a rule, each phrase of which is read so.  An
  expression need not be read to its end where it is the last symbol of its rule; before an
  operator or an `else`, such a rule (`Rule.trails`) stays open or is reduced by its level.

  All facts about the table are found by looking them up (`tableFacts`):

  * `phrase_checked`, `closed_checked`, `suffix_checked`: a rule is reduced when its symbols have
    been read;
  * `enter_checked`, `trailing_checked`: how a rule that ends with an expression is read, and what
    happens after that expression;
  * `start_checked`, `operand_checked`: what the states before and after an expression have in
    common.
-/
import ExprLang.Proofs.ParseItems

namespace ExprLang.Grammar

variable {r : Rule} {p s g : Nat} {x : Symbol}

def rules : List Rule := [
  .start, .number, .importFile, .sequenceMore, .sequenceOne, .var, .loop, .namesOne, .namesMore,
  .fieldsOne, .fieldsMore, .ofAssignment, .assignment, .forLoop, .block, .field, .settableField,
  .argumentsOne, .argumentsMore, .whileDo, .string, .bindingsOne, .bindingsMore, .doWhile, .char,
  .lambdaNone, .lambda, .lambdaRest, .structEmpty, .struct, .lock, .ifThen, .ifThenElse,
  .arrayEmpty, .array, .extendEmpty, .extend, .index, .letIn, .trap, .entry, .functionNone,
  .function, .functionRest, .paren, .dotsOne, .dotsMore, .entriesOne, .entriesMore, .ownMember,
  .member, .dictEmpty, .dict, .proc, .ofMemberAssignment, .memberAssignment, .procLocals,
  .procParams, .this, .procNone, .callNone, .call, .bool true, .bool false, .unary .not,
  .unary .plus, .unary .minus, .binary .plus, .binary .minus, .binary .times, .binary .divide,
  .binary .lt, .binary .gt, .binary .le, .binary .ge, .binary .eqs, .binary .neqs, .binary .eq,
  .binary .neq, .binary .and, .binary .or, .binary .nand, .binary .nor, .binary .imp, .binary .xor]

theorem mem_rules (r : Rule) : r ∈ rules := by
  cases r with
  | bool b => cases b <;> decide
  | unary op => cases op <;> decide
  | binary op => cases op <;> decide
  | _ => decide

/-! ## Reading symbols -/

/-- What follows a phrase that is read to its end. -/
def closes : Phrase → List Look
  | .expression | .assignment | .memberAssignment =>
    none :: (closers.erase (.word .else_)).map some
  | .sequence | .field => [some (.mark .rbrace), some (.mark .semicolon)]
  | .names => [some (.mark .dot), some (.word .in_), some (.mark .arrow), some (.mark .rparen)]
  | .arguments => [some (.mark .rbracket), some (.mark .rparen)]
  | .bindings => [some (.word .in_)]
  | .dots => [some .ident]
  | .entry => [some (.mark .comma), some (.mark .rbrace)]
  | .entries | .fields => [some (.mark .rbrace)]

/-- In the state `p` an expression is expected, and every operator after it is shifted. -/
def solid (p : Nat) : Bool :=
  (transition p (.phrase .expression)).any fun g =>
    operators.all fun (_, k, s) => (row g).shift? k == some s

/-- A phrase is read to its end if the given symbols follow. -/
def fits : Symbol → List Symbol → Bool
  | .phrase a, .token k :: _ => (closes a).contains (some k)
  | .phrase _, .phrase _ :: _ => false
  | _, _ => true

/-- The states reached over some symbols, the latest first, if all phrases but the last symbol are
    read to their end. -/
def reads : Nat → List Symbol → Option (List Nat)
  | _, [] => some []
  | p, x :: ss =>
    if fits x ss && (x != .phrase .expression || solid p) then
      (transition p x).bind fun s => (reads s ss).map (· ++ [s])
    else none

def topState : List Nat → Nat
  | [] => 0
  | s :: _ => s

/-- The symbols can be read to their end, and then the rule is reduced before each of `looks`. -/
def completes (p : Nat) (ss : List Symbol) (r : Rule) (looks : List Look) : Bool :=
  (reads p ss).any fun states => looks.all fun look =>
    (row (topState states)).reduce? look == some r &&
      match ss.getLast? with
      | some (.phrase a) => (closes a).contains look
      | _ => true

/-! ## Rules that end with an expression -/

/-- Expressions and assignments. -/
def Phrase.opens : Phrase → Bool
  | expression | assignment | memberAssignment => true
  | _ => false

/-- The rules for expressions and assignments that end with an expression. -/
def Rule.trails (r : Rule) : Bool :=
  r.lhs.opens && r.rhs.getLast? == some (.phrase .expression) && r != .start

/-- How tight a rule binds its last symbol. -/
def Rule.level : Rule → Nat
  | unary _ => 7
  | binary op => ((operators.find? (·.2.1 == kindOf op)).map (·.1)).getD 0
  | _ => 0

def Rule.lastState (r : Rule) : Nat :=
  items.toList.findIdx (·.contains (r, r.rhs.length - 1))

def trailsIn (r : Rule) (g : Nat) : Bool :=
  (closes .expression).all (fun look => (row g).reduce? look == some r) &&
    operators.all (fun (level, k, s) =>
      if r.level < level then (row g).shift? k == some s
      else (row g).reduce? (some k) == some r) &&
    if r == .ifThen then (row g).shift? (.word .else_) == some Rule.ifThenElse.lastState
    else (row g).reduce? (some (.word .else_)) == some r

/-- The rules for expressions that are read to their end and start with a symbol of their own. -/
def Rule.closed (r : Rule) : Bool :=
  r.lhs == .expression && !r.trails && !r.isInfix && r != .start && r != .ofAssignment &&
    r != .ofMemberAssignment

/-! ## Facts of the table -/

/-- What is looked up in the table. -/
structure TableFacts : Prop where
  trailing : rules.all (fun r => !r.trails ||
    (transition r.lastState (.phrase .expression)).any (trailsIn r)) = true
  enter : rules.all (fun r => !r.trails || r.isInfix || r == .ifThenElse ||
    (reads 0 r.rhs.dropLast).any (topState · == r.lastState)) = true
  closed : rules.all (fun r => !r.closed || completes 0 r.rhs r follow) = true
  suffix : rules.all (fun r => !r.isInfix || r.trails || completes 1 r.rhs.tail r follow) = true
  binary : rules.all (fun
    | r@(.binary op) => operators.contains (r.level, kindOf op, r.lastState)
    | _ => true) = true
  start : (List.range 196).all (fun p => (transition p (.phrase .expression)).isNone ||
    (row 0).edges.all fun (x, s) => x == .phrase .expression || transition p x == some s) = true
  operand : (List.range 196).all (fun p => (transition p (.phrase .expression)).all fun g =>
    [.token (.mark .lbracket), .token (.mark .lparen), .phrase .dots].all fun x =>
      transition g x == transition 1 x) = true
  phrase : (List.range 196).all (fun p => (row p).gotos.all fun (a, _) => a == .expression ||
    rules.all fun r => r.lhs != a || completes p r.rhs r (closes a)) = true
  shift : (List.range 196).all (fun p => (row p).reduce.all fun (_, looks) =>
    looks.all fun look => look.all fun k => ((row p).shift? k).isNone) = true
  assignment : [(Phrase.assignment, Rule.ofAssignment), (.memberAssignment, .ofMemberAssignment)].all
    (fun (a, r) => (transition 0 (.phrase a)).any fun s =>
      follow.all fun look => (row s).reduce? look == some r) = true
  ends : (closes .expression).all follow.contains = true
  operators : operators.all (fun (level, k, _) => follow.contains (some k) && 0 < level) = true
  whole : transition 0 (.phrase .expression) = some 1 ∧ solid 0 = true ∧
    (row 1).reduce? none = some .start

theorem tableFacts : TableFacts where
  trailing := by decide +kernel
  enter := by decide +kernel
  closed := by decide +kernel
  suffix := by decide +kernel
  binary := by decide +kernel
  start := by decide +kernel
  operand := by decide +kernel
  phrase := by decide +kernel
  shift := by decide +kernel
  assignment := by decide +kernel
  ends := by decide +kernel
  operators := by decide +kernel
  whole := by decide +kernel

/-! ## What the facts say -/

/-- What happens after the last symbol of a rule that ends with an expression: it is reduced before
    what closes expressions, before operators that do not bind tighter than its own, and before an
    `else` that does not belong to it. -/
theorem trailing_checked (h : r.trails = true) :
    ∃ g, transition r.lastState (.phrase .expression) = some g ∧
      (∀ look ∈ closes .expression, (row g).reduce? look = some r) ∧
      (∀ level k s, (level, k, s) ∈ operators →
        if r.level < level then (row g).shift? k = some s
        else (row g).reduce? (some k) = some r) ∧
      if r = .ifThen then (row g).shift? (.word .else_) = some Rule.ifThenElse.lastState
      else (row g).reduce? (some (.word .else_)) = some r := by
  have hr := List.all_eq_true.1 (TableFacts.trailing tableFacts) r (mem_rules r)
  rw [h, Bool.not_true, Bool.false_or, Option.any_eq_true] at hr
  obtain ⟨g, hg, hr⟩ := hr
  simp only [trailsIn, Bool.and_eq_true, List.all_eq_true, beq_iff_eq] at hr
  obtain ⟨⟨hclose, hop⟩, helse⟩ := hr
  refine ⟨g, hg, hclose, fun level k s hm => ?_, ?_⟩
  · have hk := hop (level, k, s) hm
    dsimp only at hk
    split_ifs at hk ⊢ <;> simpa using hk
  · split_ifs at helse ⊢ <;> simpa using helse

/-- The symbols before the last expression of a rule are read to their end. -/
theorem enter_checked (h : r.trails = true) (hi : r.isInfix = false) (he : r ≠ .ifThenElse) :
    ∃ ss, reads 0 r.rhs.dropLast = some ss ∧ topState ss = r.lastState := by
  have hr := List.all_eq_true.1 (TableFacts.enter tableFacts) r (mem_rules r)
  simpa [h, hi, he, Option.any_eq_true] using hr

theorem of_completes {ss : List Symbol} {looks : List Look} (h : completes p ss r looks = true) :
    ∃ states, reads p ss = some states ∧ ∀ look ∈ looks,
      (row (topState states)).reduce? look = some r ∧
      ∀ a, ss.getLast? = some (.phrase a) → look ∈ closes a := by
  rw [completes, Option.any_eq_true] at h
  obtain ⟨states, hs, h⟩ := h
  refine ⟨states, hs, fun look hl => ?_⟩
  have hlook := List.all_eq_true.1 h look hl
  rw [Bool.and_eq_true, beq_iff_eq] at hlook
  refine ⟨hlook.1, fun a ha => ?_⟩
  have hclose := hlook.2
  rw [ha] at hclose
  exact List.contains_iff_mem.1 hclose

theorem closed_checked (h : r.closed = true) : completes 0 r.rhs r follow = true := by
  have hr := List.all_eq_true.1 (TableFacts.closed tableFacts) r (mem_rules r)
  simpa [h] using hr

theorem suffix_checked (h : r.isInfix = true) (ht : r.trails = false) :
    completes 1 r.rhs.tail r follow = true := by
  have hr := List.all_eq_true.1 (TableFacts.suffix tableFacts) r (mem_rules r)
  simpa [h, ht] using hr

theorem phrase_checked (h : transition p (.phrase r.lhs) = some s) (hr : r.lhs ≠ .expression) :
    completes p r.rhs r (closes r.lhs) = true := by
  have hp := List.all_eq_true.1 (TableFacts.phrase tableFacts) p
    (List.mem_range.2 (lt_of_transition h))
  have hm : (r.lhs, s) ∈ (row p).gotos := by
    have := mem_edges h
    simpa [Row.edges] using this
  have hr' := List.all_eq_true.1 hp _ hm
  simp only [Bool.or_eq_true, beq_iff_eq, hr, false_or] at hr'
  simpa using List.all_eq_true.1 hr' r (mem_rules r)

theorem start_checked (hp : transition p (.phrase .expression) = some g)
    (hx : x ≠ .phrase .expression) (h : transition 0 x = some s) : transition p x = some s := by
  have hc := List.all_eq_true.1 (TableFacts.start tableFacts) p
    (List.mem_range.2 (lt_of_transition hp))
  rw [hp, Option.isNone_some, Bool.false_or] at hc
  simpa [hx] using List.all_eq_true.1 hc _ (mem_edges h)

/-- All states after an expression agree on calls, indexes and members. -/
theorem operand_checked (hp : transition p (.phrase .expression) = some g)
    (hx : x ∈ [.token (.mark .lbracket), .token (.mark .lparen), .phrase .dots]) :
    transition g x = transition 1 x := by
  have hc := List.all_eq_true.1 (TableFacts.operand tableFacts) p
    (List.mem_range.2 (lt_of_transition hp))
  rw [hp, Option.all_some] at hc
  simpa using List.all_eq_true.1 hc x hx

theorem shift?_eq_none {k : Kind} (h : (row p).reduce? (some k) = some r) :
    (row p).shift? k = none := by
  have hp := List.all_eq_true.1 (TableFacts.shift tableFacts) p (List.mem_range.2 (lt_of_reduce? h))
  obtain ⟨looks, hr, hk⟩ := Row.of_reduce? h
  rw [hr, Option.all_some] at hp
  simpa using List.all_eq_true.1 hp _ hk

theorem reads_eq {q : Nat} (ss : List Symbol) (hx : x ≠ .phrase .expression)
    (h : transition p x = transition q x) : reads p (x :: ss) = reads q (x :: ss) := by
  rw [reads, reads, h, bne_iff_ne.2 hx, Bool.true_or, Bool.true_or]

theorem reads_start {ss : List Symbol} {states : List Nat}
    (hp : transition p (.phrase .expression) = some g) (hx : ss.head? ≠ some (.phrase .expression))
    (h : reads 0 ss = some states) : reads p ss = some states := by
  cases ss with
  | nil => exact h
  | cons x ss =>
    have hx' : x ≠ .phrase .expression := fun hx' => hx (congrArg some hx')
    rw [← h]
    rw [reads] at h
    split_ifs at h
    obtain ⟨s, hs, -⟩ := Option.bind_eq_some_iff.1 h
    exact reads_eq ss hx' ((start_checked hp hx' hs).trans hs.symm)

theorem length_of_reads : ∀ {p : Nat} {ss : List Symbol} {states : List Nat},
    reads p ss = some states → states.length = ss.length
  | _, [], _, h => by cases h; rfl
  | p, x :: ss, states, h => by
    rw [reads] at h
    split_ifs at h
    obtain ⟨s, -, h⟩ := Option.bind_eq_some_iff.1 h
    obtain ⟨states', h', rfl⟩ := Option.map_eq_some_iff.1 h
    simp [length_of_reads h']

theorem assignment_checked {a : Phrase} (ho : a.opens = true) (ha : a ≠ .expression) :
    ∃ r s, r ≠ .start ∧ r.lhs = .expression ∧ r.rhs = [.phrase a] ∧
      transition 0 (.phrase a) = some s ∧ ∀ look ∈ follow, (row s).reduce? look = some r := by
  have hcases : a = .assignment ∨ a = .memberAssignment := by
    cases a <;> simp_all [Phrase.opens]
  have hall := TableFacts.assignment tableFacts
  simp only [List.all_cons, List.all_nil, Bool.and_true, Bool.and_eq_true, Option.any_eq_true,
    List.all_eq_true, beq_iff_eq] at hall
  obtain ⟨⟨s₁, hs₁, hr₁⟩, s₂, hs₂, hr₂⟩ := hall
  rcases hcases with rfl | rfl
  · exact ⟨.ofAssignment, s₁, by decide, rfl, rfl, hs₁, hr₁⟩
  · exact ⟨.ofMemberAssignment, s₂, by decide, rfl, rfl, hs₂, hr₂⟩

theorem mem_follow_of_closes {look : Look} (h : look ∈ closes .expression) : look ∈ follow :=
  List.contains_iff_mem.1 (List.all_eq_true.1 (TableFacts.ends tableFacts) look h)

theorem mem_follow_of_operators {level : Nat} {k : Kind} (h : (level, k, s) ∈ operators) :
    some k ∈ follow ∧ 0 < level := by
  have hk := List.all_eq_true.1 (TableFacts.operators tableFacts) _ h
  simpa using hk

theorem mem_operators (op : BinOp) :
    ((Rule.binary op).level, kindOf op, (Rule.binary op).lastState) ∈ operators := by
  have hop := List.all_eq_true.1 (TableFacts.binary tableFacts) _ (mem_rules (.binary op))
  dsimp only at hop
  exact List.contains_iff_mem.1 hop

theorem else_mem_follow : some (.word .else_) ∈ follow := by
  simp [follow, ending, closers]

theorem Rule.cases_of_opens (h : r.lhs.opens = true) (hs : r ≠ .start) :
    (∃ op, r = .binary op) ∨ r = .ifThenElse ∨
      r.trails = true ∧ r.isInfix = false ∧ r ≠ .ifThenElse ∨
      r.isInfix = true ∧ r.trails = false ∨ r = .ofAssignment ∨ r = .ofMemberAssignment ∨
      r.closed = true := by
  cases r <;> simp_all [Rule.trails, Rule.closed, Rule.isInfix, Rule.lhs, Rule.rhs, Phrase.opens]

end ExprLang.Grammar
