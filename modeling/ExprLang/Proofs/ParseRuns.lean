/-
  What a run of the automaton ends with.

  The stack of the machine is a path through the automaton, over well-formed trees that hold the
  tokens read so far (`Sound`).  For texts without `for` and without an assignment to a member
  behind two dots (`Plain`):

  * `Sound.reduce`: a rule that the table allows can be reduced;
  * `Sound.step`: a step keeps the machine sound and brings it closer to its end, or ends the run;
  * `Sound.run`: a run ends with a well-formed tree of the whole text, or with a fault.
-/
import ExprLang.Grammar.Automaton
import ExprLang.Proofs.ParseItems
import ExprLang.Proofs.ParseTrees
import Mathlib

namespace ExprLang.Grammar

open ExprLang.Grammar.Tree

variable {fs : List Frame} {r : Rule} {look : Look} {m : Machine} {text : Lexed}

/-! ## Stacks -/

/-- Each state was reached from the one below over a well-formed tree. -/
def Linked : List Frame → Prop
  | [] => True
  | f :: fs => transition (Machine.top fs) f.tree.symbol = some f.state ∧ f.tree.Ok ∧ Linked fs

def trees (stack : List Frame) : List Tree := (stack.map Frame.tree).reverse

@[simp] theorem trees_nil : trees [] = [] := rfl

@[simp] theorem trees_cons (f : Frame) (fs : List Frame) :
    trees (f :: fs) = trees fs ++ [f.tree] := by
  simp [trees]

theorem trees_take_drop (n : Nat) (fs : List Frame) :
    trees (fs.drop n) ++ trees (fs.take n) = trees fs := by
  rw [trees, trees, trees, ← List.reverse_append, ← List.map_append, List.take_append_drop]

theorem Linked.drop : ∀ {fs : List Frame} (n : Nat), Linked fs → Linked (fs.drop n)
  | _, 0, h => h
  | [], _ + 1, h => h
  | _ :: _, n + 1, h => h.2.2.drop n

theorem Linked.ok : ∀ {fs : List Frame}, Linked fs → ∀ t ∈ trees fs, t.Ok
  | [], _, _, ht => by cases ht
  | f :: fs, h, t, ht => by
    rw [trees_cons, List.mem_append, List.mem_singleton] at ht
    rcases ht with ht | rfl
    · exact h.2.2.ok t ht
    · exact h.2.1

/-- State 0 is only below the stack. -/
theorem Linked.eq_nil (h : Linked fs) (h₀ : Machine.top fs = 0) : fs = [] := by
  cases fs with
  | nil => rfl
  | cons f fs => exact absurd h₀ (edge_checked h.1).1

/-- What the topmost state says about a rule stands on the stack. -/
theorem Linked.of_reached {i : Nat} (h : Linked fs) (hr : reached (Machine.top fs) r i = true) :
    (trees (fs.take i)).map symbol = r.rhs.take i ∧
      begins (Machine.top (fs.drop i)) r = true := by
  induction i generalizing fs with
  | zero =>
    rw [reached, if_pos (by rfl)] at hr
    exact ⟨rfl, hr⟩
  | succ i ih =>
    rw [reached, if_neg (by simp)] at hr
    cases fs with
    | nil => exact absurd hr (by simp [Machine.top, not_inside_zero])
    | cons f fs =>
      have hc := inside_transition h.1 hr
      rw [continues, Bool.and_eq_true, beq_iff_eq] at hc
      obtain ⟨hsym, hb⟩ := ih h.2.2 hc.2
      refine ⟨?_, hb⟩
      rw [List.take_succ_cons, trees_cons, List.map_append, hsym, List.take_add_one, hc.1]
      rfl

/-! ## Refused rules -/

/-- There is no `for`, and no assignment to a member behind two dots. -/
structure Plain (ks : List Kind) : Prop where
  noFor : .word .for_ ∉ ks
  noOuter : ¬ [.mark .dot, .mark .dot, .ident, .mark .assign] <:+: ks

theorem Plain.of_infix {ks ls : List Kind} (h : Plain ls) (hi : ks <:+: ls) : Plain ks :=
  ⟨fun hk => h.noFor (hi.subset hk), fun ho => h.noOuter (ho.trans hi)⟩

theorem infix_of_dotsMore {ls : Lines} {us vs : List Tree}
    (hok : ∀ t ∈ node .dotsMore ls us :: vs, t.Ok)
    (hs : (node .dotsMore ls us :: vs).map symbol = Rule.memberAssignment.rhs) :
    [.mark .dot, .mark .dot, .ident, .mark .assign] <:+: kindsOf (node .dotsMore ls us :: vs) := by
  obtain ⟨a, as, rfl, ha, hrest⟩ := List.map_eq_cons_iff.1 (List.cons.inj hs).2
  obtain ⟨b, bs, rfl, hb, -⟩ := List.map_eq_cons_iff.1 hrest
  obtain ⟨_, rfl, hka⟩ := eq_leaf ha
  obtain ⟨_, rfl, hkb⟩ := eq_leaf hb
  cases hok _ (List.mem_cons_self ..) with
  | node _ hus hu =>
    obtain ⟨d, ds, rfl, hd, hmore⟩ := List.map_eq_cons_iff.1 hus
    obtain ⟨e, es, rfl, he, hnil⟩ := List.map_eq_cons_iff.1 hmore
    obtain ⟨_, rfl, hkd⟩ := eq_leaf hd
    obtain ⟨n, hn⟩ := kinds_dots (hu e (by simp)) he
    have hdots : .mark .dot :: List.replicate (n + 1) (.mark .dot) =
        List.replicate n (.mark .dot) ++ [Kind.mark .dot, Kind.mark .dot] := by
      rw [← List.replicate_succ, List.replicate_succ', List.replicate_succ', List.append_assoc]
      rfl
    refine ⟨List.replicate n (.mark .dot), kindsOf bs, ?_⟩
    simp [List.map_eq_nil_iff.1 hnil, hka, hkb, hkd, hn, hdots]

theorem refusal?_eq_none {ts : List Tree} (hok : ∀ t ∈ ts, t.Ok) (hs : ts.map symbol = r.rhs)
    (hp : Plain (kindsOf ts)) : refusal? r ts = none := by
  rw [refusal?.eq_def]
  split
  · exact absurd (infix_of_dotsMore hok hs) hp.noOuter
  · obtain ⟨a, as, rfl, ha, -⟩ := List.map_eq_cons_iff.1 hs
    obtain ⟨_, rfl, hk⟩ := eq_leaf ha
    exact absurd (by simp [hk]) hp.noFor
  · rfl

/-! ## Steps -/

/-- A bound for the reductions that a symbol is still part of. -/
def weight : Symbol → Nat
  | .token _ | .phrase .assignment | .phrase .memberAssignment => 5
  | .phrase .expression | .phrase .entry | .phrase .field => 4
  | .phrase _ => 3

def weightOf (ss : List Symbol) : Nat := (ss.map weight).sum

@[simp] theorem weightOf_nil : weightOf [] = 0 := rfl

@[simp] theorem weightOf_cons (x : Symbol) (ss : List Symbol) :
    weightOf (x :: ss) = weight x + weightOf ss := by simp [weightOf]

@[simp] theorem weightOf_append (ss us : List Symbol) :
    weightOf (ss ++ us) = weightOf ss + weightOf us := by simp [weightOf]

theorem weight_lhs_lt (hr : r ≠ .start) : weight (.phrase r.lhs) < weightOf r.rhs := by
  cases r <;> first | exact absurd rfl hr | simp [Rule.lhs, Rule.rhs, weight]

def Machine.left (m : Machine) : Nat :=
  weightOf ((trees m.stack).map symbol) + 6 * m.input.length

/-- The machine has read a part of the text, and nothing went wrong. -/
structure Sound (text : Lexed) (m : Machine) : Prop where
  linked : Linked m.stack
  tokens : tokensOf (trees m.stack) ++ m.input = text.tokens
  stop : m.stop = text.illegal
  trial : m.trial = 0

theorem Sound.start (text : Lexed) : Sound text (.start text) := ⟨trivial, rfl, rfl, rfl⟩

/-- What stands on the stack when the table allows a rule to be reduced. -/
theorem Linked.children (h : Linked fs) (hr : (row (Machine.top fs)).reduce? look = some r) :
    (trees (fs.take r.rhs.length)).map symbol = r.rhs ∧
      (∀ t ∈ trees (fs.take r.rhs.length), t.Ok) ∧
      begins (Machine.top (fs.drop r.rhs.length)) r = true := by
  generalize hn : r.rhs.length = n
  have hne : n ≠ 0 := by
    subst hn
    cases r <;> simp [Rule.rhs]
  obtain ⟨hsym, hb⟩ := h.of_reached (r := r) (i := n) <| by
    rw [reached, if_neg (by simpa using hne), ← hn]
    exact (reduce_checked hr).1
  rw [List.take_of_length_le (Nat.le_of_eq hn)] at hsym
  refine ⟨hsym, fun t ht => h.ok t ?_, hb⟩
  rw [← trees_take_drop n fs]
  exact List.mem_append_right _ ht

/-- The stack after a rule was reduced. -/
theorem Linked.reduced (h : Linked fs) (hr : (row (Machine.top fs)).reduce? look = some r)
    (hs : r ≠ .start) : ∃ f, f.tree = .apply r (trees (fs.take r.rhs.length)) ∧
      transition (Machine.top (fs.drop r.rhs.length)) (.phrase r.lhs) = some f.state ∧
      Linked (f :: fs.drop r.rhs.length) ∧
      tokensOf (trees (f :: fs.drop r.rhs.length)) = tokensOf (trees fs) ∧
      weightOf ((trees (f :: fs.drop r.rhs.length)).map symbol) <
        weightOf ((trees fs).map symbol) := by
  obtain ⟨hsym, hok, hb⟩ := h.children hr
  rw [begins, if_neg (by simpa using hs), Option.isSome_iff_exists] at hb
  obtain ⟨s, hg⟩ := hb
  have hsplit := trees_take_drop r.rhs.length fs
  refine ⟨⟨s, .apply r (trees (fs.take r.rhs.length))⟩, rfl, hg,
    ⟨hg, .node hs hsym hok, h.drop _⟩, ?_, ?_⟩
  · rw [← hsplit]
    simp [Tree.apply]
  · have hw := weight_lhs_lt hs
    rw [← hsplit, List.map_append, hsym]
    simp only [trees_cons, List.map_append, List.map_cons, List.map_nil, Tree.apply, symbol_node,
      weightOf_append, weightOf_cons, weightOf_nil]
    omega

theorem Machine.reduce_eq {f : Frame} (hf : f.tree = .apply r (trees (m.stack.take r.rhs.length)))
    (hg : transition (top (m.stack.drop r.rhs.length)) (.phrase r.lhs) = some f.state)
    (hrefuse : refusal? r (trees (m.stack.take r.rhs.length)) = none) :
    m.reduce r = .next { m with stack := f :: m.stack.drop r.rhs.length } := by
  obtain ⟨s, t⟩ := f
  obtain rfl : t = _ := hf
  rw [trees] at hrefuse
  rw [transition] at hg
  simp only [reduce, hrefuse, hg]
  rfl

theorem Sound.reduce (h : Sound text m) (hp : Plain (text.tokens.map (·.kind)))
    (hr : (row (Machine.top m.stack)).reduce? look = some r) (hs : r ≠ .start) :
    ∃ f, transition (Machine.top (m.stack.drop r.rhs.length)) (.phrase r.lhs) = some f.state ∧
      m.reduce r = .next { m with stack := f :: m.stack.drop r.rhs.length } ∧
      Sound text { m with stack := f :: m.stack.drop r.rhs.length } ∧
      Machine.left { m with stack := f :: m.stack.drop r.rhs.length } < m.left := by
  obtain ⟨hsym, hok, -⟩ := h.linked.children hr
  have hrefuse : refusal? r (trees (m.stack.take r.rhs.length)) = none := by
    refine refusal?_eq_none hok hsym (hp.of_infix ?_)
    rw [← h.tokens, ← trees_take_drop r.rhs.length m.stack, tokensOf_append, List.map_append,
      List.map_append]
    exact ⟨(tokensOf (trees (m.stack.drop r.rhs.length))).map (·.kind), m.input.map (·.kind), rfl⟩
  obtain ⟨f, hf, hg, hlinked, htokens, hweight⟩ := h.linked.reduced hr hs
  refine ⟨f, hg, Machine.reduce_eq hf hg hrefuse, ⟨hlinked, ?_, h.stop, h.trial⟩, ?_⟩
  · rw [← h.tokens, ← htokens]
  · exact Nat.add_lt_add_right hweight _

/-- How runs on a text may end. -/
def Outcome.Fits (text : Lexed) : Outcome → Prop
  | .tree t =>
    t.Ok ∧ t.symbol = .phrase .expression ∧ t.tokens = text.tokens ∧ text.illegal = none
  | .unexpected _ | .illegal _ => True
  | .nothing | .forLoop => False

def Step.Fits (text : Lexed) (m : Machine) : Step → Prop
  | .next m' => Sound text m' ∧ m'.left < m.left
  | .halt o => o.Fits text

theorem Sound.shift {t : Token} {rest : List Token} {s : Nat} (h : Sound text m)
    (hi : m.input = t :: rest) (hs : (row (Machine.top m.stack)).shift? t.kind = some s) :
    Step.Fits text m (.next { m with
      stack := ⟨s, .leaf t⟩ :: m.stack, input := rest, trial := m.trial - 1 }) := by
  refine ⟨⟨⟨hs, .leaf t, h.linked⟩, ?_, h.stop, by simp [h.trial]⟩, ?_⟩
  · rw [← h.tokens, hi]
    simp
  · simp only [Machine.left, hi, trees_cons, List.map_append, List.map_cons, List.map_nil,
      symbol_leaf, weightOf_append, weightOf_cons, weightOf_nil, weight, List.length_cons]
    omega

theorem Sound.reject (h : Sound text m) : m.reject.Fits text m := by
  rw [Machine.reject, if_pos h.trial]
  trivial

theorem Sound.accept (h : Sound text m) (hi : m.input = []) (hs : m.stop = none)
    (hr : (row (Machine.top m.stack)).reduce? none = some .start) :
    ∃ f, m.stack = [f] ∧ (Outcome.tree f.tree).Fits text := by
  obtain ⟨hsym, hb⟩ := h.linked.of_reached (r := .start) (i := 1) (reduce_checked hr).1
  obtain ⟨f, fs, hf⟩ : ∃ f fs, m.stack = f :: fs := by
    cases hm : m.stack with
    | nil => simp [hm, Rule.rhs] at hsym
    | cons f fs => exact ⟨f, fs, rfl⟩
  have hlinked := h.linked
  rw [hf] at hlinked hsym hb
  obtain rfl : fs = [] := hlinked.2.2.eq_nil (by simpa [begins] using hb)
  refine ⟨f, hf, hlinked.2.1, by simpa [Rule.rhs] using hsym, ?_, by rw [← h.stop, hs]⟩
  rw [← h.tokens, hf, hi]
  simp

/-- A step keeps the machine sound and brings it closer to its end, or ends the run. -/
theorem Sound.step (h : Sound text m) (hp : Plain (text.tokens.map (·.kind))) :
    m.step.Fits text m := by
  rw [Machine.step]
  split
  · trivial
  · next hi hs =>
    split
    · next hr =>
      obtain ⟨f, hf, hfits⟩ := h.accept hi hs hr
      rw [hf]
      exact hfits
    · next r hne hr =>
      obtain ⟨f, -, hstep, hsound, hleft⟩ := h.reduce hp hr hne
      rw [hstep]
      exact ⟨hsound, hleft⟩
    · exact h.reject
  · next t rest hi =>
    split
    · next s hs => exact h.shift hi hs
    · split
      · next r hr =>
        have hne : r ≠ .start := fun hs => by cases (reduce_checked hr).2 hs
        obtain ⟨f, -, hstep, hsound, hleft⟩ := h.reduce hp hr hne
        rw [hstep]
        exact ⟨hsound, hleft⟩
      · exact h.reject

/-- A run ends with a well-formed tree of the whole text, or with a fault. -/
theorem Sound.run (hp : Plain (text.tokens.map (·.kind))) :
    ∀ {fuel : Nat} {m : Machine}, Sound text m → m.left < fuel → (m.run fuel).Fits text
  | fuel + 1, m, h, hf => by
    have hstep := h.step hp
    rw [Machine.run]
    split
    · next m' hm =>
      rw [hm] at hstep
      exact Sound.run hp hstep.1 (by have := hstep.2; omega)
    · next o ho =>
      rw [ho] at hstep
      exact hstep

theorem left_start (text : Lexed) : (Machine.start text).left < enough text.tokens.length := by
  simp only [Machine.left, Machine.start, trees_nil, List.map_nil, weightOf_nil, enough]
  omega

end ExprLang.Grammar
