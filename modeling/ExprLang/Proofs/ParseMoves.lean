/-
  Reading whatever can be derived.

  Here the machine is only its states and the kinds of the tokens to come (`Move`).  A tree is read
  to its end when the state after its symbol is reached (`ReadsToEnd`).  An expression may also be
  left open: the rules that it ends in then still stand on the stack, above the states from which
  it was read (`Opens`), and

  * `Opens.close`: they are all reduced before what closes an expression;
  * `Opens.operator`: before an operator, some of them are reduced, and then it is shifted;
  * `Opens.alternative`: an `else` is shifted as long as one of them is an `if` without `else`.

  `reads_of_ok`: every well-formed tree can be read to its end, so that no choice of the table
  between shifting and reducing loses a text.
-/
import ExprLang.Proofs.ParseTable
import ExprLang.Proofs.ParseTrees
import Mathlib.Logic.Relation

namespace ExprLang.Grammar

open ExprLang.Grammar.Tree

variable {ss σ τ : List Nat} {g s n : Nat} {w : List Kind} {r : Rule} {ts us : List Tree}
  {ls : Lines}

/-! ## Moves -/

/-- One step of the automaton over its states, the latest first, and the kinds to come. -/
inductive Move : List Nat × List Kind → List Nat × List Kind → Prop where
  | shift {σ : List Nat} {k : Kind} {w : List Kind} {s : Nat}
      (h : (row (topState σ)).shift? k = some s) : Move (σ, k :: w) (s :: σ, w)
  | reduce {σ : List Nat} {w : List Kind} {r : Rule} {s : Nat}
      (hr : (row (topState σ)).reduce? w.head? = some r) (hs : r ≠ .start)
      (hg : transition (topState (σ.drop r.rhs.length)) (.phrase r.lhs) = some s) :
      Move (σ, w) (s :: σ.drop r.rhs.length, w)

/-- Any number of steps. -/
abbrev Moves := Relation.ReflTransGen Move

theorem topState_append (τ : List Nat) (h : ss ≠ []) : topState (ss ++ τ) = topState ss := by
  cases ss with
  | nil => exact absurd rfl h
  | cons s ss => rfl

theorem Move.push {k : Kind} (w : List Kind) (h : (row g).shift? k = some s) :
    Move (g :: σ, k :: w) (s :: g :: σ, w) :=
  .shift (by rw [topState]; exact h)

theorem Move.pop (ss : List Nat) (hr : (row (topState (ss ++ σ))).reduce? w.head? = some r)
    (hs : r ≠ .start) (hl : ss.length = r.rhs.length)
    (hg : transition (topState σ) (.phrase r.lhs) = some s) : Move (ss ++ σ, w) (s :: σ, w) := by
  have hdrop : (ss ++ σ).drop r.rhs.length = σ := by rw [← hl, List.drop_left]
  have hmove := Move.reduce hr hs (by rw [hdrop]; exact hg)
  rwa [hdrop] at hmove

/-! ## Reading to the end -/

/-- From wherever the symbol of the tree is expected, the tree is read and its state reached, if
    what follows closes it. -/
def ReadsToEnd (t : Tree) : Prop :=
  ∀ ⦃σ : List Nat⦄ ⦃w : List Kind⦄ ⦃s : Nat⦄, transition (topState σ) t.symbol = some s →
    (t.symbol = .phrase .expression → solid (topState σ) = true) →
    (∀ a, t.symbol = .phrase a → w.head? ∈ closes a) → Moves (σ, t.kinds ++ w) (s :: σ, w)

theorem ReadsToEnd.leaf (t : Token) : ReadsToEnd (leaf t) := fun _ _ _ hs _ _ =>
  .single (.shift hs)

theorem head?_mem_closes {a : Phrase} (hf : fits (.phrase a) (ts.map symbol) = true)
    (hw : ts = [] → w.head? ∈ closes a) : (kindsOf ts ++ w).head? ∈ closes a := by
  cases ts with
  | nil => exact hw rfl
  | cons t ts =>
    rw [List.map_cons] at hf
    cases t with
    | leaf tok => exact List.contains_iff_mem.1 hf
    | node r ls us => cases hf

theorem moves_of_reads : ∀ {ts : List Tree} {σ ss : List Nat},
    (∀ t ∈ ts, ReadsToEnd t) → reads (topState σ) (ts.map symbol) = some ss →
    (∀ a, (ts.map symbol).getLast? = some (.phrase a) → w.head? ∈ closes a) →
    Moves (σ, kindsOf ts ++ w) (ss ++ σ, w)
  | [], _, _, _, hr, _ => by cases hr; exact .refl
  | t :: ts, σ, ss, h, hr, hw => by
    rw [List.map_cons, reads] at hr
    split_ifs at hr with hfits
    simp only [Bool.and_eq_true, Bool.or_eq_true, bne_iff_ne] at hfits
    obtain ⟨s, hs, hr⟩ := Option.bind_eq_some_iff.1 hr
    obtain ⟨ss', hr', rfl⟩ := Option.map_eq_some_iff.1 hr
    have hhead : Moves (σ, t.kinds ++ (kindsOf ts ++ w)) (s :: σ, kindsOf ts ++ w) := by
      refine h t (List.mem_cons_self ..) hs (fun hx => hfits.2.resolve_left fun hne => hne hx) ?_
      intro a ha
      refine head?_mem_closes (by rw [← ha]; exact hfits.1) fun hnil => hw a ?_
      simp [hnil, ha]
    have htail : Moves (s :: σ, kindsOf ts ++ w) (ss' ++ s :: σ, w) := by
      refine moves_of_reads (fun u hu => h u (List.mem_cons_of_mem t hu)) hr' fun a ha => hw a ?_
      rw [List.map_cons, List.getLast?_cons, ha]
      rfl
    rw [kindsOf_cons, List.append_assoc, List.append_assoc]
    exact hhead.trans htail

theorem moves_of_completes {looks : List Look} (h : ∀ t ∈ ts, ReadsToEnd t)
    (hs : ts.map symbol = r.rhs) (hr : r ≠ .start)
    (hc : completes (topState σ) r.rhs r looks = true) (hw : w.head? ∈ looks)
    (hg : transition (topState σ) (.phrase r.lhs) = some s) :
    Moves (σ, kindsOf ts ++ w) (s :: σ, w) := by
  obtain ⟨ss, hreads, hlooks⟩ := of_completes hc
  obtain ⟨hred, hclose⟩ := hlooks _ hw
  have hlen := length_of_reads hreads
  have hne : ss ≠ [] := by
    rintro rfl
    cases r <;> simp [Rule.rhs] at hlen
  rw [← hs] at hreads hclose
  refine (moves_of_reads h hreads hclose).tail (.pop ss ?_ hr hlen hg)
  rw [topState_append σ hne]
  exact hred

/-! ## Open rules -/

/-- Above the states `σ`, rules are open that only lack their last symbol, an expression; `n` of
    them are an `if` without `else`. -/
inductive Opens (σ : List Nat) : List Nat → Nat → Prop where
  | base (h : solid (topState σ) = true) : Opens σ σ 0
  | step {τ ss : List Nat} {n : Nat} {r : Rule} (h : Opens σ τ n) (hr : r.trails = true)
      (hl : ss.length + 1 = r.rhs.length) (ht : topState ss = r.lastState) :
      Opens σ (ss ++ τ) (n + if r = .ifThen then 1 else 0)

theorem Rule.two_le_of_trails (h : r.trails = true) : 2 ≤ r.rhs.length := by
  cases r <;> simp_all [Rule.trails, Rule.rhs, Rule.lhs, Phrase.opens]

theorem Rule.ne_start_of_trails (h : r.trails = true) : r ≠ .start := by
  rintro rfl
  cases h

theorem topState_open (hr : r.trails = true) (hl : ss.length + 1 = r.rhs.length)
    (ht : topState ss = r.lastState) : topState (ss ++ τ) = r.lastState := by
  rw [topState_append, ht]
  rintro rfl
  have := Rule.two_le_of_trails hr
  simp at hl
  omega

theorem Opens.expects (h : Opens σ τ n) :
    ∃ g, transition (topState τ) (.phrase .expression) = some g := by
  cases h with
  | base h =>
    obtain ⟨g, hg, -⟩ := (Option.any_eq_true ..).1 h
    exact ⟨g, hg⟩
  | step _ hr hl ht =>
    obtain ⟨g, hg, -⟩ := trailing_checked hr
    exact ⟨g, by rw [topState_open hr hl ht]; exact hg⟩

/-- An open rule is reduced, and so an expression is read; an assignment takes one step more. -/
theorem moves_reduce {g' : Nat} (w : List Kind) (hr : r.trails = true)
    (hl : ss.length + 1 = r.rhs.length) (hred : (row g).reduce? w.head? = some r)
    (hw : w.head? ∈ follow) (hg : transition (topState τ) (.phrase .expression) = some g') :
    Moves (g :: (ss ++ τ), w) (g' :: τ, w) := by
  have hpop : ∀ s, transition (topState τ) (.phrase r.lhs) = some s →
      Move (g :: (ss ++ τ), w) (s :: τ, w) := fun s hs =>
    Move.pop (g :: ss) hred (Rule.ne_start_of_trails hr) hl hs
  by_cases he : r.lhs = .expression
  · exact .single (hpop g' (by rw [he]; exact hg))
  · have ho : r.lhs.opens = true := by
      simp only [Rule.trails, Bool.and_eq_true] at hr
      exact hr.1.1
    obtain ⟨u, s, hu, hlhs, hrhs, hs, hlooks⟩ := assignment_checked ho he
    have hs' := start_checked hg (by simpa using he) hs
    refine .trans (.single (hpop s hs')) (.single ?_)
    exact Move.pop [s] (hlooks _ hw) hu (by rw [hrhs]; rfl) (by rw [hlhs]; exact hg)

theorem Opens.close (h : Opens σ τ n) (hg : transition (topState τ) (.phrase .expression) = some g)
    (hw : w.head? ∈ closes .expression) :
    ∃ g₀, transition (topState σ) (.phrase .expression) = some g₀ ∧
      Moves (g :: τ, w) (g₀ :: σ, w) := by
  induction h generalizing g with
  | base => exact ⟨g, hg, .refl⟩
  | @step τ ss n r h hr hl ht ih =>
    obtain ⟨g', hg'⟩ := h.expects
    obtain ⟨g₀, hg₀, hmoves⟩ := ih hg'
    obtain ⟨u, hu, hclose, -⟩ := trailing_checked hr
    rw [topState_open hr hl ht] at hg
    obtain rfl : g = u := Option.some.inj (hg.symm.trans hu)
    refine ⟨g₀, hg₀, ?_⟩
    exact (moves_reduce w hr hl (hclose _ hw) (mem_follow_of_closes hw) hg').trans hmoves

/-- Before an operator, the open rules that bind at least as tight are reduced. -/
theorem Opens.operator {level : Nat} {k : Kind} (w : List Kind) (hk : (level, k, s) ∈ operators)
    (h : Opens σ τ n) (hg : transition (topState τ) (.phrase .expression) = some g) :
    ∃ τ' g', Moves (g :: τ, k :: w) (s :: g' :: τ', w) ∧
      transition (topState τ') (.phrase .expression) = some g' ∧ Opens σ τ' n := by
  obtain ⟨hfollow, hpos⟩ := mem_follow_of_operators hk
  induction h generalizing g with
  | base h =>
    obtain ⟨u, hu, hops⟩ := (Option.any_eq_true ..).1 h
    obtain rfl : g = u := Option.some.inj (hg.symm.trans hu)
    have hs : (row g).shift? k = some s := by simpa using List.all_eq_true.1 hops _ hk
    exact ⟨σ, g, .single (.push w hs), hg, .base h⟩
  | @step τ ss n r h hr hl ht ih =>
    obtain ⟨u, hu, -, hop, -⟩ := trailing_checked hr
    have hg₁ := hg
    rw [topState_open hr hl ht] at hg₁
    obtain rfl : g = u := Option.some.inj (hg₁.symm.trans hu)
    have hop := hop level k s hk
    split_ifs at hop with hlevel
    · exact ⟨ss ++ τ, g, .single (.push w hop), hg, .step h hr hl ht⟩
    · have hif : r ≠ .ifThen := by
        rintro rfl
        exact hlevel hpos
      obtain ⟨g', hg'⟩ := h.expects
      obtain ⟨τ', g'', hmoves, hg'', hopens⟩ := ih hg'
      rw [if_neg hif]
      exact ⟨τ', g'', (moves_reduce (k :: w) hr hl hop hfollow hg').trans hmoves, hg'', hopens⟩

/-- An `else` belongs to the last `if` without one. -/
theorem Opens.alternative (w : List Kind) (h : Opens σ τ n) (hn : 0 < n)
    (hg : transition (topState τ) (.phrase .expression) = some g) :
    ∃ τ' n', Moves (g :: τ, .word .else_ :: w) (τ', w) ∧ Opens σ τ' n' ∧ n ≤ n' + 1 := by
  induction h generalizing g with
  | base => cases hn
  | @step τ ss n r h hr hl ht ih =>
    obtain ⟨u, hu, -, -, helse⟩ := trailing_checked hr
    rw [topState_open hr hl ht] at hg
    obtain rfl : g = u := Option.some.inj (hg.symm.trans hu)
    split_ifs at helse hn ⊢ with hif
    · subst hif
      refine ⟨_ :: g :: ss ++ τ, n + 0, .single (.push w helse), ?_, Nat.le_refl _⟩
      exact Opens.step (r := .ifThenElse) h rfl (by simpa [Rule.rhs] using hl) rfl
    · obtain ⟨g', hg'⟩ := h.expects
      obtain ⟨τ', n', hmoves, hopens, hle⟩ := ih hn hg'
      have hreduce := moves_reduce (.word .else_ :: w) hr hl helse else_mem_follow hg'
      exact ⟨τ', n', hreduce.trans hmoves, hopens, hle⟩

/-! ## Expressions left open -/

/-- From wherever rules may be open, the tree is read as an expression, and rules may be open
    afterwards; none that waits for an `else` is lost. -/
def ReadsOpen (t : Tree) : Prop :=
  ∀ ⦃σ τ : List Nat⦄ ⦃n : Nat⦄ ⦃w : List Kind⦄, Opens σ τ n → w.head? ∈ follow →
    ∃ τ' n' g, Moves (τ, t.kinds ++ w) (g :: τ', w) ∧
      transition (topState τ') (.phrase .expression) = some g ∧ Opens σ τ' n' ∧ n ≤ n'

theorem Rule.head?_rhs (h : r.lhs.opens = true) (hs : r ≠ .start) (hi : r.isInfix = false) :
    r.rhs.head? ≠ some (.phrase .expression) := by
  cases r <;> simp_all [Rule.lhs, Rule.rhs, Rule.isInfix, Phrase.opens]

theorem ReadsOpen.closed (hr : r.closed = true) (hs : ts.map symbol = r.rhs)
    (h : ∀ t ∈ ts, ReadsToEnd t) : ReadsOpen (node r ls ts) := by
  intro σ τ n w hopens hw
  obtain ⟨g, hg⟩ := hopens.expects
  simp only [Rule.closed, Bool.and_eq_true, beq_iff_eq, bne_iff_ne, Bool.not_eq_true'] at hr
  obtain ⟨⟨⟨⟨⟨hlhs, -⟩, hi⟩, hstart⟩, -⟩, -⟩ := id hr
  have hhead := Rule.head?_rhs (by rw [hlhs]; rfl) hstart hi
  have hc : completes (topState τ) r.rhs r follow = true := by
    have hc := closed_checked (r := r) (by simp [Rule.closed, hr])
    obtain ⟨ss, hreads, -⟩ := of_completes hc
    rw [completes, hreads] at hc
    rw [completes, reads_start hg hhead hreads]
    exact hc
  refine ⟨τ, n, g, ?_, hg, hopens, Nat.le_refl n⟩
  exact moves_of_completes h hs hstart hc hw (by rw [hlhs]; exact hg)

theorem Rule.last_is_token (h : r.trails = true) :
    ∃ k, r.rhs.dropLast.getLast? = some (.token k) := by
  cases r <;> simp_all [Rule.trails, Rule.lhs, Rule.rhs, Phrase.opens]

theorem split_last (hr : r.trails = true) (hs : ts.map symbol = r.rhs) :
    ∃ us e, ts = us ++ [e] ∧ us.map symbol = r.rhs.dropLast ∧ e.symbol = .phrase .expression := by
  have hlast : r.rhs.getLast? = some (.phrase .expression) := by
    simp only [Rule.trails, Bool.and_eq_true, beq_iff_eq] at hr
    exact hr.1.2
  obtain ⟨init, hinit⟩ := List.getLast?_eq_some_iff.1 hlast
  rw [hinit] at hs
  obtain ⟨us, es, rfl, hus, hes⟩ := List.map_eq_append_iff.1 hs
  obtain ⟨e, rfl, he⟩ := List.map_eq_singleton_iff.1 hes
  exact ⟨us, e, rfl, by rw [hus, hinit, List.dropLast_concat], he⟩

theorem Opens.enter (w : List Kind) (hopens : Opens σ τ n) (hr : r.trails = true)
    (hi : r.isInfix = false) (he : r ≠ .ifThenElse) (hs : us.map symbol = r.rhs.dropLast)
    (h : ∀ t ∈ us, ReadsToEnd t) : ∃ ss, Moves (τ, kindsOf us ++ w) (ss ++ τ, w) ∧
      Opens σ (ss ++ τ) (n + if r = .ifThen then 1 else 0) := by
  obtain ⟨g, hg⟩ := hopens.expects
  obtain ⟨ss, hreads, htop⟩ := enter_checked hr hi he
  have hopen := hr
  simp only [Rule.trails, Bool.and_eq_true] at hopen
  have hlen := length_of_reads hreads
  have htwo := Rule.two_le_of_trails hr
  rw [List.length_dropLast] at hlen
  have hhead : r.rhs.dropLast.head? ≠ some (.phrase .expression) := by
    rw [List.head?_dropLast, if_pos (by omega)]
    exact Rule.head?_rhs hopen.1.1 (Rule.ne_start_of_trails hr) hi
  refine ⟨ss, ?_, .step hopens hr (by omega) htop⟩
  refine moves_of_reads h (by rw [hs]; exact reads_start hg hhead hreads) fun a ha => ?_
  obtain ⟨k, hk⟩ := Rule.last_is_token hr
  rw [hs, hk] at ha
  cases ha

theorem ReadsOpen.trailing (hr : r.trails = true) (hi : r.isInfix = false) (he : r ≠ .ifThenElse)
    (hs : ts.map symbol = r.rhs) (h : ∀ t ∈ ts, ReadsToEnd t)
    (ho : ∀ t ∈ ts, t.symbol = .phrase .expression → ReadsOpen t) : ReadsOpen (node r ls ts) := by
  intro σ τ n w hopens hw
  obtain ⟨us, e, rfl, hus, hsym⟩ := split_last hr hs
  obtain ⟨ss, hmoves, hopens⟩ := hopens.enter (e.kinds ++ w) hr hi he hus fun t ht =>
    h t (List.mem_append_left _ ht)
  obtain ⟨τ', n', g, hmoves', hg, hopens', hle⟩ := ho e (by simp) hsym hopens hw
  refine ⟨τ', n', g, ?_, hg, hopens', by omega⟩
  simpa using hmoves.trans hmoves'

theorem ReadsOpen.binary {op : BinOp} {a b : Tree} {k : Tree} (hk : k.symbol = .token (kindOf op))
    (ha : ReadsOpen a) (hb : ReadsOpen b) : ReadsOpen (node (.binary op) ls [a, k, b]) := by
  intro σ τ n w hopens hw
  obtain ⟨tok, rfl, hkind⟩ := eq_leaf hk
  have hop := mem_operators op
  -- The left operand, then whatever has to be reduced before the operator.
  obtain ⟨τ₁, n₁, g₁, hmoves₁, hg₁, hopens₁, hle₁⟩ :=
    ha (w := kindOf op :: (b.kinds ++ w)) hopens (mem_follow_of_operators hop).1
  obtain ⟨τ₂, g₂, hmoves₂, hg₂, hopens₂⟩ := hopens₁.operator (b.kinds ++ w) hop hg₁
  -- The operator leaves its rule open for the right operand.
  have hopens₃ : Opens σ ([(Rule.binary op).lastState, g₂] ++ τ₂) (n₁ + 0) :=
    Opens.step (r := .binary op) hopens₂ (by cases op <;> rfl) rfl rfl
  obtain ⟨τ₃, n₃, g₃, hmoves₃, hg₃, hopens₄, hle₃⟩ := hb hopens₃ hw
  refine ⟨τ₃, n₃, g₃, ?_, hg₃, hopens₄, by omega⟩
  simpa [hkind] using (hmoves₁.trans hmoves₂).trans hmoves₃

theorem ReadsOpen.ifThenElse (hs : ts.map symbol = Rule.ifThenElse.rhs) (h : ∀ t ∈ ts, ReadsToEnd t)
    (ho : ∀ t ∈ ts, t.symbol = .phrase .expression → ReadsOpen t) :
    ReadsOpen (node .ifThenElse ls ts) := by
  intro σ τ n w hopens hw
  -- `if`, the condition and `then` are read as for a rule without `else`.
  have hsplit : ts.map symbol = Rule.ifThen.rhs.dropLast ++ Rule.ifThenElse.rhs.drop 3 := hs
  obtain ⟨us, vs, rfl, hus, hvs⟩ := List.map_eq_append_iff.1 hsplit
  obtain ⟨yes, vs, rfl, hyes, hvs⟩ := List.map_eq_cons_iff.1 hvs
  obtain ⟨k, vs, rfl, hk, hvs⟩ := List.map_eq_cons_iff.1 hvs
  obtain ⟨no, rfl, hno⟩ := List.map_eq_singleton_iff.1 hvs
  obtain ⟨tok, rfl, hkind⟩ := eq_leaf hk
  obtain ⟨ss, hmoves, hopens₁⟩ := hopens.enter (r := .ifThen)
    (yes.kinds ++ .word .else_ :: (no.kinds ++ w)) rfl rfl (by decide) hus
    fun t ht => h t (List.mem_append_left _ ht)
  obtain ⟨τ₂, n₂, g₂, hmoves₂, hg₂, hopens₂, hle₂⟩ := ho yes (by simp) hyes hopens₁
    (w := .word .else_ :: (no.kinds ++ w)) else_mem_follow
  rw [if_pos rfl] at hle₂
  obtain ⟨τ₃, n₃, hmoves₃, hopens₃, hle₃⟩ := hopens₂.alternative (no.kinds ++ w) (by omega) hg₂
  obtain ⟨τ₄, n₄, g₄, hmoves₄, hg₄, hopens₄, hle₄⟩ := ho no (by simp) hno hopens₃ hw
  refine ⟨τ₄, n₄, g₄, ?_, hg₄, hopens₄, by omega⟩
  simpa [hkind] using ((hmoves.trans hmoves₂).trans hmoves₃).trans hmoves₄

theorem Rule.of_isInfix (h : r.isInfix = true) :
    r.lhs = .expression ∧ r.rhs = .phrase .expression :: r.rhs.tail := by
  cases r <;> simp_all [Rule.isInfix, Rule.lhs, Rule.rhs]

/-- What follows the expression in a call, an index or a member. -/
theorem suffix_cases (hi : r.isInfix = true) (ht : r.trails = false)
    (hs : us.map symbol = r.rhs.tail) (hok : ∀ t ∈ us, t.Ok) :
    ∃ x ss k ks, r.rhs.tail = x :: ss ∧ kindsOf us = k :: ks ∧ some k ∈ follow ∧
      x ∈ [.token (.mark .lbracket), .token (.mark .lparen), .phrase .dots] := by
  have htoken : ∀ {k : Kind} {ss : List Symbol}, us.map symbol = .token k :: ss →
      ∃ ks, kindsOf us = k :: ks := by
    intro k ss h
    obtain ⟨u, us, rfl, hu, -⟩ := List.map_eq_cons_iff.1 h
    obtain ⟨tok, rfl, hk⟩ := eq_leaf hu
    exact ⟨kindsOf us, by simp [hk]⟩
  have hop : ∀ k s, (8, k, s) ∈ operators → some k ∈ follow := fun k s hk =>
    (mem_follow_of_operators hk).1
  cases r <;> try contradiction
  case index =>
    obtain ⟨ks, hks⟩ := htoken hs
    exact ⟨_, _, _, ks, rfl, hks, hop _ 51 (by simp [operators]), by simp⟩
  case member =>
    obtain ⟨u, us, rfl, hu, -⟩ := List.map_eq_cons_iff.1 hs
    obtain ⟨n, hn⟩ := kinds_dots (hok u (by simp)) hu
    refine ⟨_, _, .mark .dot, List.replicate n (.mark .dot) ++ kindsOf us, rfl, ?_,
      hop _ 18 (by simp [operators]), by simp⟩
    rw [kindsOf_cons, hn]
    rfl
  case callNone =>
    obtain ⟨ks, hks⟩ := htoken hs
    exact ⟨_, _, _, ks, rfl, hks, hop _ 53 (by simp [operators]), by simp⟩
  case call =>
    obtain ⟨ks, hks⟩ := htoken hs
    exact ⟨_, _, _, ks, rfl, hks, hop _ 53 (by simp [operators]), by simp⟩

theorem ReadsOpen.suffix {a : Tree} (hi : r.isInfix = true) (ht : r.trails = false)
    (hs : us.map symbol = r.rhs.tail) (hok : ∀ t ∈ us, t.Ok) (h : ∀ t ∈ us, ReadsToEnd t)
    (ha : ReadsOpen a) : ReadsOpen (node r ls (a :: us)) := by
  intro σ τ n w hopens hw
  obtain ⟨x, xs, k, ks, htail, hkinds, hk, hx⟩ := suffix_cases hi ht hs hok
  obtain ⟨τ', n', g, hmoves, hg, hopens', hle⟩ := ha (w := kindsOf us ++ w) hopens <| by
    rw [hkinds]
    exact hk
  refine ⟨τ', n', g, ?_, hg, hopens', hle⟩
  rw [kinds_node, kindsOf_cons, List.append_assoc]
  refine hmoves.trans ?_
  -- The rest is read as behind the expression that is the whole text.
  obtain ⟨hlhs, hrhs⟩ := Rule.of_isInfix hi
  obtain ⟨ss, hreads, hlooks⟩ := of_completes (suffix_checked hi ht)
  obtain ⟨hred, hclose⟩ := hlooks _ hw
  have hlen := length_of_reads hreads
  have hne : ss ≠ [] := by
    rintro rfl
    rw [htail] at hlen
    cases hlen
  have hreads' : reads g (us.map symbol) = some ss := by
    rw [hs, ← hreads, htail]
    exact reads_eq xs (by rintro rfl; simp at hx) (operand_checked hg hx)
  rw [← hs] at hclose
  refine (moves_of_reads (σ := g :: τ') h hreads' hclose).tail ?_
  have hpop : Move ((ss ++ [g]) ++ τ', w) (g :: τ', w) := by
    refine Move.pop (r := r) (ss ++ [g]) ?_ (by rintro rfl; cases hi) ?_ ?_
    · rw [List.append_assoc, topState_append _ hne]
      exact hred
    · rw [List.length_append, hlen, hrhs]
      rfl
    · rw [hlhs]
      exact hg
  simpa using hpop

/-! ## Every tree -/

/-- The tree of an expression or assignment can be left open, if its parts can be read. -/
theorem ReadsOpen.node (hr : r ≠ .start) (hs : ts.map symbol = r.rhs) (hok : ∀ t ∈ ts, t.Ok)
    (h : ∀ t ∈ ts, ReadsToEnd t)
    (ho : ∀ t ∈ ts, ∀ a, t.symbol = .phrase a → a.opens = true → ReadsOpen t)
    (hl : r.lhs.opens = true) : ReadsOpen (.node r ls ts) := by
  have hexpr : ∀ t ∈ ts, t.symbol = .phrase .expression → ReadsOpen t := fun t ht hsym =>
    ho t ht _ hsym rfl
  have hunit : ∀ {a : Phrase}, r.rhs = [.phrase a] → a.opens = true →
      ReadsOpen (.node r ls ts) := by
    intro a hrhs ha
    obtain ⟨t, rfl, ht⟩ := List.map_eq_singleton_iff.1 (hs.trans hrhs)
    have hopen := ho t (by simp) a ht ha
    intro σ τ n w hopens hw
    simpa using hopen hopens hw
  rcases r.cases_of_opens hl hr with
    ⟨op, rfl⟩ | rfl | ⟨ht, hi, he⟩ | ⟨hi, ht⟩ | rfl | rfl | hclosed
  · obtain ⟨a, ts, rfl, ha, hs⟩ := List.map_eq_cons_iff.1 hs
    obtain ⟨k, ts, rfl, hk, hs⟩ := List.map_eq_cons_iff.1 hs
    obtain ⟨b, rfl, hb⟩ := List.map_eq_singleton_iff.1 hs
    exact .binary hk (hexpr a (by simp) ha) (hexpr b (by simp) hb)
  · exact .ifThenElse hs h hexpr
  · exact .trailing ht hi he hs h hexpr
  · rw [(Rule.of_isInfix hi).2] at hs
    obtain ⟨a, us, rfl, ha, hus⟩ := List.map_eq_cons_iff.1 hs
    exact .suffix hi ht hus (fun t ht => hok t (List.mem_cons_of_mem a ht))
      (fun t ht => h t (List.mem_cons_of_mem a ht)) (hexpr a (by simp) ha)
  · exact hunit rfl rfl
  · exact hunit rfl rfl
  · exact .closed hclosed hs h

theorem ReadsOpen.toEnd {t : Tree} (h : ReadsOpen t) (ht : t.symbol = .phrase .expression) :
    ReadsToEnd t := by
  intro σ w s hs hsolid hw
  have hclose := hw _ ht
  obtain ⟨τ, n, g, hmoves, hg, hopens, -⟩ :=
    h (.base (hsolid ht)) (mem_follow_of_closes hclose)
  obtain ⟨g₀, hg₀, hmoves'⟩ := hopens.close hg hclose
  rw [ht] at hs
  obtain rfl : s = g₀ := Option.some.inj (hs.symm.trans hg₀)
  exact hmoves.trans hmoves'

/-- **Every well-formed tree can be read**, whatever the table chooses between shifting and
    reducing. -/
theorem reads_of_ok {t : Tree} (h : t.Ok) :
    ReadsToEnd t ∧ ∀ a, t.symbol = .phrase a → a.opens = true → ReadsOpen t := by
  induction h with
  | leaf t => exact ⟨.leaf t, fun a ha => by cases ha⟩
  | @node r ls ts hr hs hok ih =>
    have hparts : ∀ t ∈ ts, ReadsToEnd t := fun t ht => (ih t ht).1
    have hopen : r.lhs.opens = true → ReadsOpen (.node r ls ts) := fun hl =>
      .node hr hs hok hparts (fun t ht => (ih t ht).2) hl
    refine ⟨?_, fun a ha hl => hopen (by cases ha; exact hl)⟩
    by_cases hl : r.lhs = .expression
    · exact (hopen (by rw [hl]; rfl)).toEnd (by rw [symbol_node, hl])
    · intro σ w s hs' _ hw
      exact moves_of_completes hparts hs hr (phrase_checked hs' hl) (hw _ rfl) hs'

end ExprLang.Grammar
