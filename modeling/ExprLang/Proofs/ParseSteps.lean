/-
  Steps of the machine, with refused rules and recovery.

  * `Machine.of_step`, `Machine.of_reduce`: what a step that does not end the run can be, and
    `Machine.of_halt`: how a run can end;
  * `Linked.next`: it keeps the stack a path through the automaton and brings the machine closer to
    its end;
  * `Steps.run_eq`: so a run does not depend on its number of steps, if there are enough.
-/
import ExprLang.Proofs.ParseRuns
import Mathlib.Logic.Relation

namespace ExprLang.Grammar

open ExprLang.Grammar.Tree

namespace Machine

variable {m m' : Machine}

/-- The kind of the next token. -/
def look (m : Machine) : Look := (m.input.map (·.kind)).head?

/-- A step that goes on shifts a token, reduces a rule or drops what was read. -/
theorem of_step (h : m.step = .next m') :
    (∃ t rest s, m.input = t :: rest ∧ (row (top m.stack)).shift? t.kind = some s ∧
        m' = { m with stack := ⟨s, .leaf t⟩ :: m.stack, input := rest, trial := m.trial - 1 }) ∨
      (∃ r, (row (top m.stack)).reduce? m.look = some r ∧ r ≠ .start ∧ m.reduce r = .next m') ∨
      (m.input ≠ [] ∧ m.trial ≠ 0 ∧ m' = m.restart) := by
  have hreject : m.reject = .next m' → m.input ≠ [] ∧ m.trial ≠ 0 ∧ m' = m.restart := by
    intro hm
    rw [reject] at hm
    split_ifs at hm with htrial hempty
    cases hm
    exact ⟨by simpa using hempty, htrial, rfl⟩
  rw [step] at h
  split at h
  · cases h
  · next hi hs =>
    have hlook : m.look = none := by rw [look, hi]; rfl
    rw [hlook]
    split at h
    · split at h <;> cases h
    · next r hne hr => exact .inr (.inl ⟨r, hr, hne, h⟩)
    · exact .inr (.inr (hreject h))
  · next t rest hi =>
    have hlook : m.look = some t.kind := by rw [look, hi]; rfl
    rw [hlook]
    split at h
    · next s hs =>
      cases h
      exact .inl ⟨t, rest, s, hi, hs, rfl⟩
    · split at h
      · next r hr =>
        refine .inr (.inl ⟨r, hr, fun hs => ?_, h⟩)
        cases (reduce_checked hr).2 hs
      · exact .inr (.inr (hreject h))

theorem of_reduce {r : Rule} (h : m.reduce r = .next m') :
    refusal? r (trees (m.stack.take r.rhs.length)) = some .outerAssignment ∧ m' = m.restart ∨
      refusal? r (trees (m.stack.take r.rhs.length)) = none ∧
        ∃ f : Frame, m' = { m with stack := f :: m.stack.drop r.rhs.length } := by
  rw [reduce] at h
  dsimp only at h
  split at h
  · cases h
  · next hr =>
    cases h
    exact .inl ⟨hr, rfl⟩
  · next hr =>
    split at h
    · cases h
      exact .inr ⟨hr, _, rfl⟩
    · cases h

/-- A run ends with a tree, with nothing, at a `for`, at a token when none is on trial, or at an
    illegal character. -/
theorem of_halt {o : Outcome} (h : m.step = .halt o) :
    (∃ f, o = .tree f.tree ∧ m.input = [] ∧ m.stack = [f]) ∨ o = .nothing ∨ o = .forLoop ∨
      (o = .unexpected m.input.head? ∧ m.trial = 0) ∨ ∃ c, o = .illegal c ∧ m.stop = some c := by
  have hreduce : ∀ {r}, m.reduce r = .halt o → o = .nothing ∨ o = .forLoop := by
    intro r hr
    rw [reduce] at hr
    dsimp only at hr
    split at hr
    · cases hr
      exact .inr rfl
    · cases hr
    · split at hr <;> cases hr
      exact .inl rfl
  have hreject : m.reject = .halt o →
      o = .nothing ∨ (o = .unexpected m.input.head? ∧ m.trial = 0) := by
    intro hr
    rw [reject] at hr
    split_ifs at hr with htrial hempty
    · cases hr
      exact .inr ⟨rfl, htrial⟩
    · cases hr
      exact .inl rfl
  rw [step] at h
  split at h
  · next c hi hs =>
    cases h
    exact .inr (.inr (.inr (.inr ⟨c, rfl, hs⟩)))
  · next hi hs =>
    split at h
    · split at h
      · next f hf =>
        cases h
        exact .inl ⟨f, rfl, hi, hf⟩
      · cases h
        exact .inr (.inl rfl)
    · rcases hreduce h with ho | ho <;> simp [ho]
    · rcases hreject h with ho | ho <;> simp [ho]
  · split at h
    · cases h
    · split at h
      · rcases hreduce h with ho | ho <;> simp [ho]
      · rcases hreject h with ho | ho <;> simp [ho]

theorem left_restart (m : Machine) : m.restart.left = 6 * m.input.tail.length := by
  simp [left, restart]

end Machine

theorem Linked.next {m m' : Machine} (h : Linked m.stack) (hstep : m.step = .next m') :
    Linked m'.stack ∧ m'.left < m.left := by
  rcases Machine.of_step hstep with ⟨t, rest, s, hi, hs, rfl⟩ | ⟨r, hr, hne, hred⟩ | ⟨hi, -, rfl⟩
  · refine ⟨⟨hs, .leaf t, h⟩, ?_⟩
    simp only [Machine.left, hi, trees_cons, List.map_append, List.map_cons, List.map_nil,
      symbol_leaf, weightOf_append, weightOf_cons, weightOf_nil, weight, List.length_cons]
    omega
  · obtain ⟨f, hf, hg, hlinked, -, hweight⟩ := h.reduced hr hne
    rcases Machine.of_reduce hred with ⟨-, rfl⟩ | ⟨hrefuse, -⟩
    · refine ⟨trivial, ?_⟩
      have htail := m.input.length_tail
      rw [Machine.left_restart, Machine.left]
      omega
    · cases hred.symm.trans (Machine.reduce_eq hf hg hrefuse)
      exact ⟨hlinked, Nat.add_lt_add_right hweight _⟩
  · refine ⟨trivial, ?_⟩
    obtain ⟨t, rest, hi⟩ := List.exists_cons_of_ne_nil hi
    rw [Machine.left_restart, Machine.left, hi, List.tail_cons, List.length_cons]
    omega

abbrev Steps := Relation.ReflTransGen fun m m' : Machine => m.step = .next m'

/-- More fuel than needed makes no difference. -/
theorem Linked.run_eq {m : Machine} (h : Linked m.stack) {n k : Nat} (hn : m.left < n)
    (hk : m.left < k) : m.run n = m.run k := by
  induction n generalizing m k with
  | zero => cases hn
  | succ n ih =>
    obtain ⟨k, rfl⟩ := Nat.exists_eq_succ_of_ne_zero (Nat.ne_zero_of_lt hk)
    rw [Machine.run, Machine.run]
    cases hstep : m.step with
    | halt o => rfl
    | next m' =>
      obtain ⟨hlinked, hleft⟩ := h.next hstep
      exact ih hlinked (by omega) (by omega)

theorem Steps.run_eq {m m' : Machine} (hsteps : Steps m m') (h : Linked m.stack) {n k : Nat}
    (hn : m.left < n) (hk : m'.left < k) : m.run n = m'.run k := by
  induction hsteps using Relation.ReflTransGen.head_induction_on generalizing n with
  | refl => exact h.run_eq hn hk
  | head hstep _ ih =>
    obtain ⟨n, rfl⟩ := Nat.exists_eq_succ_of_ne_zero (Nat.ne_zero_of_lt hn)
    obtain ⟨hlinked, hleft⟩ := h.next hstep
    rw [Machine.run, hstep]
    exact ih hlinked (by omega)

theorem left_lt_enough (ts : List Token) (stop : Option Char) (trial : Nat) :
    Machine.left ⟨[], ts, stop, trial⟩ < enough ts.length := by
  simp only [Machine.left, trees_nil, List.map_nil, weightOf_nil, enough]
  omega

end ExprLang.Grammar
