/-
  Trees with all their parts in parentheses.

  In a tidy tree every expression that is a part of another one stands in parentheses.  Then no
  level of an operator matters, and the machine builds exactly the tree that is there:

  * `tidyReads` follows the table over the symbols of a rule, and `tidyFacts` says that the rule is
    reduced after them, wherever it can stand in a tidy tree;
  * `Tidy.builds`: the machine reads the tokens of a tidy tree and has that tree on its stack.
-/
import ExprLang.Proofs.Parsing
import ExprLang.Proofs.ParseSteps

namespace ExprLang.Grammar

open ExprLang.Grammar.Tree

variable {r : Rule} {ts : List Tree} {t : Tree} {p s : Nat} {look : Look} {rest : List Token}
  {fs : List Frame}

/-! ## Tidy trees -/

def Tree.isParen : Tree → Bool
  | node .paren _ _ => true
  | _ => false

theorem isParen_node {ls : Lines} : (node r ls ts).isParen = true ↔ r = .paren := by
  cases r <;> simp [isParen]

/-- No rule is refused, all parts that are expressions stand in parentheses, and the lines are those
    of the tokens. -/
inductive Tree.Tidy : Tree → Prop where
  | leaf (t : Token) : Tidy (leaf t)
  | node {r : Rule} {ts : List Tree} (hr : r ≠ .start) (hs : ts.map symbol = r.rhs)
      (hrefuse : refusal? r ts = none)
      (hparen : r ≠ .paren → ∀ t ∈ ts, t.symbol = .phrase .expression → t.isParen = true)
      (h : ∀ t ∈ ts, Tidy t) : Tidy (.apply r ts)

theorem Tree.Tidy.ok (h : t.Tidy) : t.Ok := by
  induction h with
  | leaf t => exact .leaf t
  | node hr hs _ _ _ ih => exact .node hr hs ih

/-! ## Reading by the table -/

/-- What comes next where some symbols follow, and then `look`. -/
def ahead (look : Look) : List Symbol → Option Look
  | [] => some look
  | .token k :: _ => some (some k)
  | .phrase .dots :: _ => some (some (.mark .dot))
  | .phrase _ :: _ => none

def passes (p : Nat) (next : Option Look) : Symbol → Bool
  | .token _ => true
  | .phrase .expression =>
    (row p).shift? (.mark .lparen) == some 28 && next.any follow.contains
  | .phrase a => next.any (closes a).contains

/-- The state after some symbols, if all expressions in them stand in parentheses. -/
def tidyReads (look : Look) : Nat → List Symbol → Option Nat
  | p, [] => some p
  | p, x :: ss =>
    if passes p (ahead look ss) x then (transition p x).bind fun s => tidyReads look s ss else none

/-- The rule is reduced after its symbols. -/
def tidily (p : Nat) (look : Look) (r : Rule) : Bool :=
  (tidyReads look p r.rhs).any fun s => (row s).reduce? look == some r

/-- Where an expression without parentheses can stand in a tidy tree. -/
def outermost : List (Nat × Look) := [(0, none), (28, some (.mark .rparen))]

/-- What is looked up in the table. -/
structure TidyFacts : Prop where
  expression : outermost.all (fun (p, look) => rules.all fun r =>
    r.lhs != .expression || r == .start || tidily p look r) = true
  phrase : (List.range 196).all (fun p => (row p).gotos.all fun (a, _) => a == .expression ||
    rules.all fun r => r.lhs != a || (closes a).all fun look => tidily p look r) = true
  paren : (transition 28 (.phrase .expression)).any (fun g => ((row g).shift? (.mark .rparen)).any
    fun h => follow.all fun look => (row h).reduce? look == some .paren) = true

theorem tidyFacts : TidyFacts where
  expression := by decide +kernel
  phrase := by decide +kernel
  paren := by decide +kernel

theorem tidily_of_outermost (h : (p, look) ∈ outermost) (hl : r.lhs = .expression)
    (hr : r ≠ .start) : tidily p look r = true := by
  have hp := List.all_eq_true.1 (TidyFacts.expression tidyFacts) _ h
  have hrule := List.all_eq_true.1 hp r (mem_rules r)
  simpa [hl, hr] using hrule

theorem tidily_of_closes (h : transition p (.phrase r.lhs) = some s) (hl : r.lhs ≠ .expression)
    (hlook : look ∈ closes r.lhs) : tidily p look r = true := by
  have hp := List.all_eq_true.1 (TidyFacts.phrase tidyFacts) p
    (List.mem_range.2 (lt_of_transition h))
  have hm : (r.lhs, s) ∈ (row p).gotos := by simpa [Row.edges] using mem_edges h
  have hgoto := List.all_eq_true.1 hp _ hm
  simp only [Bool.or_eq_true, beq_iff_eq, hl, false_or] at hgoto
  have hrule := List.all_eq_true.1 hgoto r (mem_rules r)
  simp only [bne_self_eq_false, Bool.false_or] at hrule
  exact List.all_eq_true.1 hrule look hlook

theorem paren_checked : ∃ g h, transition 28 (.phrase .expression) = some g ∧
    (row g).shift? (.mark .rparen) = some h ∧
    ∀ look ∈ follow, (row h).reduce? look = some .paren := by
  have hp := TidyFacts.paren tidyFacts
  simpa [Option.any_eq_true] using hp

/-! ## Building tidy trees -/

def lookOf (ts : List Token) : Look := (ts.map (·.kind)).head?

/-- The tree may stand in the state `p` before `look`. -/
def Expected (p : Nat) (look : Look) (t : Tree) : Prop :=
  match t.symbol with
  | .token _ => True
  | .phrase .expression => (p, look) ∈ outermost ∨
      t.isParen = true ∧ (row p).shift? (.mark .lparen) = some 28 ∧ look ∈ follow
  | .phrase a => look ∈ closes a

/-- Wherever the tree may stand, the machine reads its tokens and then has it on its stack. -/
def Builds (t : Tree) : Prop :=
  ∀ (fs : List Frame) (rest : List Token) (s : Nat),
    transition (Machine.top fs) t.symbol = some s →
    Expected (Machine.top fs) (lookOf rest) t →
    Steps ⟨fs, t.tokens ++ rest, none, 0⟩ ⟨⟨s, t⟩ :: fs, rest, none, 0⟩

theorem Builds.leaf (t : Token) : Builds (leaf t) := fun _ _ _ hs _ =>
  .single (Machine.step_shift rfl hs)

theorem lookOf_of_ahead (hok : ∀ t ∈ ts, t.Ok)
    (h : ahead (lookOf rest) (ts.map symbol) = some look) :
    lookOf (tokensOf ts ++ rest) = look := by
  cases ts with
  | nil => exact Option.some.inj h
  | cons t ts =>
    cases t with
    | leaf tok => exact Option.some.inj h
    | node r ls us =>
      obtain hd | hd := eq_or_ne r.lhs .dots
      · obtain ⟨n, hn⟩ := kinds_dots (hok _ (List.mem_cons_self ..)) (congrArg Symbol.phrase hd)
        rw [List.map_cons, symbol_node, hd] at h
        obtain rfl := Option.some.inj h
        have hhead : (tokensOf us).map (·.kind) = List.replicate (n + 1) (.mark .dot) := hn
        simp [lookOf, hhead, List.replicate_succ]
      · rw [List.map_cons, symbol_node] at h
        cases hl : r.lhs <;> simp_all [ahead]

theorem expected_of_passes {next : Option Look}
    (hparen : t.symbol = .phrase .expression → t.isParen = true) (h : passes p next t.symbol = true)
    (hnext : ∀ l, next = some l → look = l) : Expected p look t := by
  rw [Expected]
  split
  · trivial
  · next ht =>
    rw [ht, passes, Bool.and_eq_true, beq_iff_eq, Option.any_eq_true] at h
    obtain ⟨hs, l, hl, hf⟩ := h
    rw [hnext l hl]
    exact .inr ⟨hparen ht, hs, List.contains_iff_mem.1 hf⟩
  · next a ha ht =>
    have hclose : passes p next (.phrase a) = next.any (closes a).contains := by
      rw [passes]
      exact ha
    rw [ht, hclose, Option.any_eq_true] at h
    obtain ⟨l, hl, hf⟩ := h
    rw [hnext l hl]
    exact List.contains_iff_mem.1 hf

theorem steps_of_tidyReads {q : Nat} :
    ∀ {ts : List Tree} {fs : List Frame}, (∀ t ∈ ts, t.Ok ∧ Builds t) →
      (∀ t ∈ ts, t.symbol = .phrase .expression → t.isParen = true) →
      tidyReads (lookOf rest) (Machine.top fs) (ts.map symbol) = some q →
      ∃ gs, Steps ⟨fs, tokensOf ts ++ rest, none, 0⟩ ⟨gs ++ fs, rest, none, 0⟩ ∧
        gs.length = ts.length ∧ trees gs = ts ∧ Machine.top (gs ++ fs) = q
  | [], fs, _, _, hq => ⟨[], .refl, rfl, rfl, Option.some.inj hq⟩
  | t :: ts, fs, h, hparen, hq => by
    rw [List.map_cons, tidyReads] at hq
    split_ifs at hq with hpass
    obtain ⟨s, hs, hq⟩ := Option.bind_eq_some_iff.1 hq
    obtain ⟨⟨-, hbuild⟩, hlater⟩ := List.forall_mem_cons.1 h
    obtain ⟨hparen, hparens⟩ := List.forall_mem_cons.1 hparen
    have hexpected : Expected (Machine.top fs) (lookOf (tokensOf ts ++ rest)) t :=
      expected_of_passes hparen hpass fun l hl => lookOf_of_ahead (fun u hu => (hlater u hu).1) hl
    have hnext : tidyReads (lookOf rest) (Machine.top (⟨s, t⟩ :: fs)) (ts.map symbol) = some q := hq
    obtain ⟨gs, hsteps, hlen, htrees, htop⟩ := steps_of_tidyReads hlater hparens hnext
    have hsplit : gs ++ ⟨s, t⟩ :: fs = (gs ++ [⟨s, t⟩]) ++ fs := by simp
    rw [hsplit] at hsteps htop
    refine ⟨gs ++ [⟨s, t⟩], ?_, by simp [hlen], ?_, htop⟩
    · rw [tokensOf_cons, List.append_assoc]
      exact (hbuild fs _ s hs hexpected).trans hsteps
    · rw [← htrees]
      simp [trees]

theorem steps_reduce {gs : List Frame} (hr : r ≠ .start) (hlen : gs.length = r.rhs.length)
    (hred : (row (Machine.top (gs ++ fs))).reduce? (lookOf rest) = some r)
    (hrefuse : refusal? r (trees gs) = none)
    (hgoto : transition (Machine.top fs) (.phrase r.lhs) = some s) :
    Steps ⟨gs ++ fs, rest, none, 0⟩ ⟨⟨s, .apply r (trees gs)⟩ :: fs, rest, none, 0⟩ := by
  have htake : (gs ++ fs).take r.rhs.length = gs := by rw [← hlen, List.take_left]
  have hdrop : (gs ++ fs).drop r.rhs.length = fs := by rw [← hlen, List.drop_left]
  have hreduce := Machine.reduce_eq (m := ⟨gs ++ fs, rest, none, 0⟩) (r := r)
    (f := ⟨s, .apply r (trees gs)⟩) (by rw [htake]) (by rw [hdrop]; exact hgoto)
    (by rw [htake]; exact hrefuse)
  rw [hdrop] at hreduce
  have hstep := Machine.step_reduce (m := ⟨gs ++ fs, rest, none, 0⟩) rfl hr hred
  exact .single (hstep.trans hreduce)

theorem steps_of_tidily (hr : r ≠ .start) (hs : ts.map symbol = r.rhs)
    (hrefuse : refusal? r ts = none)
    (hparen : ∀ t ∈ ts, t.symbol = .phrase .expression → t.isParen = true)
    (h : ∀ t ∈ ts, t.Ok ∧ Builds t) (hgoto : transition (Machine.top fs) (.phrase r.lhs) = some s)
    (htidy : tidily (Machine.top fs) (lookOf rest) r = true) :
    Steps ⟨fs, tokensOf ts ++ rest, none, 0⟩ ⟨⟨s, .apply r ts⟩ :: fs, rest, none, 0⟩ := by
  simp only [tidily, Option.any_eq_true, beq_iff_eq] at htidy
  obtain ⟨q, hq, hred⟩ := htidy
  rw [← hs] at hq
  obtain ⟨gs, hsteps, hlen, rfl, htop⟩ := steps_of_tidyReads h hparen hq
  have hrhs : gs.length = r.rhs.length := by rw [hlen, ← hs, List.length_map]
  rw [← htop] at hred
  exact hsteps.trans (steps_reduce hr hrhs hred hrefuse hgoto)

theorem steps_paren (hs : ts.map symbol = Rule.paren.rhs) (h : ∀ t ∈ ts, Builds t)
    (hgoto : transition (Machine.top fs) (.phrase .expression) = some s)
    (hopen : (row (Machine.top fs)).shift? (.mark .lparen) = some 28)
    (hlook : lookOf rest ∈ follow) :
    Steps ⟨fs, tokensOf ts ++ rest, none, 0⟩ ⟨⟨s, .apply .paren ts⟩ :: fs, rest, none, 0⟩ := by
  obtain ⟨a, as, rfl, ha, hs⟩ := List.map_eq_cons_iff.1 hs
  obtain ⟨b, bs, rfl, hb, hs⟩ := List.map_eq_cons_iff.1 hs
  obtain ⟨c, rfl, hc⟩ := List.map_eq_singleton_iff.1 hs
  obtain ⟨l, rfl, hl⟩ := eq_leaf ha
  obtain ⟨r, rfl, hr⟩ := eq_leaf hc
  obtain ⟨g, q, hg, hq, hred⟩ := paren_checked
  have hfirst := Builds.leaf l fs (b.tokens ++ r :: rest) 28
    (by rw [symbol_leaf, hl]; exact hopen) trivial
  have hinner := h b (by simp) (⟨28, leaf l⟩ :: fs) (r :: rest) g (by rw [hb]; exact hg) <| by
    rw [Expected, hb]
    refine .inl ?_
    simp [outermost, Machine.top, lookOf, hr]
  have hlast := Builds.leaf r (⟨g, b⟩ :: ⟨28, leaf l⟩ :: fs) rest q
    (by rw [symbol_leaf, hr]; exact hq) trivial
  have hreduce : Steps ⟨[⟨q, leaf r⟩, ⟨g, b⟩, ⟨28, leaf l⟩] ++ fs, rest, none, 0⟩
      ⟨⟨s, .apply .paren [leaf l, b, leaf r]⟩ :: fs, rest, none, 0⟩ :=
    steps_reduce (by decide) rfl (hred _ hlook) rfl hgoto
  have htokens : tokensOf [leaf l, b, leaf r] ++ rest = [l] ++ (b.tokens ++ r :: rest) := by simp
  rw [htokens]
  exact ((hfirst.trans hinner).trans hlast).trans hreduce

/-- Where an expression may stand without parentheses it may also stand in them. -/
theorem paren_of_outermost (h : (p, look) ∈ outermost) :
    (row p).shift? (.mark .lparen) = some 28 ∧ look ∈ follow := by
  have hall : outermost.all (fun (p, look) =>
    (row p).shift? (.mark .lparen) == some 28 && follow.contains look) = true := by decide +kernel
  have hp := List.all_eq_true.1 hall _ h
  simpa using hp

/-- **The machine builds tidy trees.** -/
theorem Tree.Tidy.builds (h : t.Tidy) : Builds t := by
  induction h with
  | leaf t => exact .leaf t
  | @node r ts hr hs hrefuse hparen hparts ih =>
    intro fs rest s hgoto hexpected
    have hok : ∀ t ∈ ts, t.Ok ∧ Builds t := fun t ht => ⟨(hparts t ht).ok, ih t ht⟩
    obtain rfl | hp := eq_or_ne r .paren
    · obtain h₀ | ⟨-, hopen, hlook⟩ := hexpected
      · obtain ⟨hopen, hlook⟩ := paren_of_outermost h₀
        exact steps_paren hs ih hgoto hopen hlook
      · exact steps_paren hs ih hgoto hopen hlook
    · refine steps_of_tidily hr hs hrefuse (hparen hp) hok hgoto ?_
      obtain hl | hl := eq_or_ne r.lhs .expression
      · refine tidily_of_outermost ?_ hl hr
        simp only [Expected, Tree.apply, symbol_node, hl] at hexpected
        refine hexpected.resolve_right fun h => hp ?_
        exact (isParen_node.1 h.1)
      · refine tidily_of_closes hgoto hl ?_
        simpa only [Expected, Tree.apply, symbol_node] using hexpected

theorem derive_of_steps {text : Lexed} (ht : t.symbol = .phrase .expression)
    (h : Steps (Machine.start text) ⟨[⟨1, t⟩], [], none, 0⟩) : derive text = .tree t := by
  obtain ⟨-, -, hstart⟩ := TableFacts.whole tableFacts
  have hleft : Machine.left ⟨[⟨1, t⟩], [], none, 0⟩ < 5 := by
    simp [Machine.left, ht, weight]
  rw [derive, Steps.run_eq h trivial (left_start text) hleft, Machine.run, Machine.step]
  simp only [Machine.top, hstart]

theorem derive_of_tidy {text : Lexed} (h : t.Tidy) (ht : t.symbol = .phrase .expression)
    (htokens : text.tokens = t.tokens) (hi : text.illegal = none) : derive text = .tree t := by
  refine derive_of_steps ht ?_
  rw [Machine.start, htokens, hi, ← List.append_nil t.tokens]
  refine h.builds [] [] 1 (by rw [ht]; exact (TableFacts.whole tableFacts).1) ?_
  rw [Expected, ht]
  exact .inl (by decide)

end ExprLang.Grammar
