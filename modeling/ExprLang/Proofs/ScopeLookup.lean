/-
  Looking names up, asking for them, and giving them values.

  A scope knows its own names and its parent; what a name means in it is settled on the chain of
  parents.  Here this is said of the chain itself, without walking it:

  * `f.Above n id k`: `n` parents up from `id` is `k`, and `f.OnChain id k`: some number of parents
    up is;
  * `f.Innermost id x k`: `k` is on the chain and binds `x`, and every other scope there that binds
    `x` lies further out;
  * `f.Target id x k`: `k` is the innermost scope that binds `x` or, where there is none, the root.

  `ScopeOp`s are what can be done with a scope; from one empty scope on they make all the forests
  that there are (`ScopeOp.runAll`).  In each of them parents come before their children, so that
  every walk ends in a root (`ParentsFirst`).

  * `Forest.has?_spec`, `Forest.home_target`, `Forest.rootOf_iff`: where the walks end.  The question
    for a name is the only one that takes room for nested calls, one for each scope that is asked;
  * `lookup_test_update_agree`: they agree on every such forest, as far as there is room.
-/
import ExprLang.Eval.Builtin
import ExprLang.Proofs.Regions
import Mathlib.Logic.Relation

namespace ExprLang

open Relation

namespace Forest

variable {α β : Type} {f : Forest α β} {id k p : Nat} {x : String}

/-! ## Chains of parents -/

/-- `n` parents up from `id` is `k`. -/
def Above (f : Forest α β) : Nat → Nat → Nat → Prop
  | 0, id, k => k = id
  | n + 1, id, k => ∃ p, f.parent? id = some p ∧ f.Above n p k

/-- Some number of parents up from `id` is `k`. -/
def OnChain (f : Forest α β) : Nat → Nat → Prop := ReflTransGen fun i p => f.parent? i = some p

/-- `k` is the innermost scope that binds `x` on the chain of `id`. -/
structure Innermost (f : Forest α β) (id : Nat) (x : String) (k : Nat) : Prop where
  onChain : f.OnChain id k
  binds : (f.vars k).has x = true
  first : ∀ j, f.OnChain id j → (f.vars j).has x = true → f.OnChain k j

/-- `k` ends the chain of `id`. -/
structure RootOf (f : Forest α β) (id k : Nat) : Prop where
  onChain : f.OnChain id k
  noParent : f.parent? k = none

/-- `k` is the innermost scope that binds `x` or, if none does, the root of the chain. -/
def Target (f : Forest α β) (id : Nat) (x : String) (k : Nat) : Prop :=
  f.Innermost id x k ∨ (∀ j, f.OnChain id j → (f.vars j).has x = false) ∧ f.RootOf id k

/-- Parents come before their children. -/
def ParentsFirst (f : Forest α β) : Prop := ∀ i p, f.parent? i = some p → p < i

theorem OnChain.refl (f : Forest α β) (id : Nat) : f.OnChain id id := ReflTransGen.refl

theorem OnChain.up (hp : f.parent? id = some p) (h : f.OnChain p k) : f.OnChain id k :=
  ReflTransGen.head hp h

theorem onChain_iff : f.OnChain id k ↔ k = id ∨ ∃ p, f.parent? id = some p ∧ f.OnChain p k := by
  constructor
  · intro h
    rcases ReflTransGen.cases_head h with rfl | ⟨p, hp, h⟩
    · exact .inl rfl
    · exact .inr ⟨p, hp, h⟩
  · rintro (rfl | ⟨p, hp, h⟩)
    · exact OnChain.refl f k
    · exact OnChain.up hp h

theorem onChain_of_root (hp : f.parent? id = none) : f.OnChain id k ↔ k = id := by
  rw [onChain_iff, hp]
  simp

theorem onChain_of_parent (hp : f.parent? id = some p) :
    f.OnChain id k ↔ k = id ∨ f.OnChain p k := by
  rw [onChain_iff, hp]
  simp

theorem OnChain.le (hf : f.ParentsFirst) (h : f.OnChain id k) : k ≤ id := by
  induction h with
  | refl => exact le_rfl
  | tail _ hp ih => exact (hf _ _ hp).le.trans ih

theorem Innermost.unique (hf : f.ParentsFirst) {l : Nat} (hk : f.Innermost id x k)
    (hl : f.Innermost id x l) : k = l :=
  le_antisymm ((hl.first k hk.onChain hk.binds).le hf) ((hk.first l hl.onChain hl.binds).le hf)

/-! ## Where the walks end -/

theorem home_of_root (hx : (f.vars id).has x = false) (hp : f.parent? id = none) :
    f.home id x = id := by
  rw [home, if_neg (by simp [hx]), hp]

/-- The question goes up the chain to the scope that the name refers to, one call deeper for each
    parent. -/
theorem has?_spec (hf : f.ParentsFirst) (id : Nat) (x : String) :
    ∃ n, f.Above n id (f.home id x) ∧ (∀ room ≤ n, f.has? room id x = none) ∧
      ∀ room > n, f.has? room id x = some ((f.vars (f.home id x)).has x) := by
  induction id using Nat.strongRecOn with
  | ind id ih =>
    by_cases hx : (f.vars id).has x = true
    · rw [home_of_has hx]
      refine ⟨0, rfl, fun room hroom => ?_, fun room hroom => ?_⟩
      · rw [Nat.le_zero.1 hroom, has?]
      · obtain ⟨room, rfl⟩ := Nat.exists_eq_add_of_lt hroom
        rw [has?, if_pos hx, hx]
    · have hx' : (f.vars id).has x = false := by simpa using hx
      cases hp : f.parent? id with
      | none =>
        rw [home_of_root hx' hp]
        refine ⟨0, rfl, fun room hroom => ?_, fun room hroom => ?_⟩
        · rw [Nat.le_zero.1 hroom, has?]
        · obtain ⟨room, rfl⟩ := Nat.exists_eq_add_of_lt hroom
          rw [has?, if_neg hx, hp, hx']
      | some p =>
        rw [home_of_parent hx' hp (hf id p hp)]
        obtain ⟨n, habove, hsmall, hlarge⟩ := ih p (hf id p hp)
        have hstep : ∀ room, f.has? (room + 1) id x = f.has? room p x := by
          intro room
          rw [has?, if_neg hx, hp]
        refine ⟨n + 1, ⟨p, hp, habove⟩, fun room hroom => ?_, fun room hroom => ?_⟩
        · cases room with
          | zero => rw [has?]
          | succ room => rw [hstep, hsmall room (Nat.le_of_succ_le_succ hroom)]
        · cases room with
          | zero => exact absurd hroom (Nat.not_lt_zero _)
          | succ room => rw [hstep, hlarge room (Nat.lt_of_succ_lt_succ hroom)]

/-- The search ends at the innermost scope that binds the name, or else at the root. -/
theorem home_target (hf : f.ParentsFirst) (id : Nat) (x : String) :
    f.Target id x (f.home id x) := by
  induction id using Nat.strongRecOn with
  | ind id ih =>
    by_cases hx : (f.vars id).has x = true
    · rw [home_of_has hx]
      exact .inl ⟨OnChain.refl f id, hx, fun j hj _ => hj⟩
    · have hx' : (f.vars id).has x = false := by simpa using hx
      cases hp : f.parent? id with
      | none =>
        rw [home_of_root hx' hp]
        refine .inr ⟨?_, OnChain.refl f id, hp⟩
        intro j hj
        rw [(onChain_of_root hp).1 hj]
        exact hx'
      | some p =>
        rw [home_of_parent hx' hp (hf id p hp)]
        rcases ih p (hf id p hp) with hin | ⟨hnone, hroot⟩
        · refine .inl ⟨.up hp hin.onChain, hin.binds, ?_⟩
          intro j hj hbinds
          rcases (onChain_of_parent hp).1 hj with rfl | hj
          · exact absurd hbinds hx
          · exact hin.first j hj hbinds
        · refine .inr ⟨?_, .up hp hroot.onChain, hroot.noParent⟩
          intro j hj
          rcases (onChain_of_parent hp).1 hj with rfl | hj
          · exact hx'
          · exact hnone j hj

/-- A chain has one end, which the third walk finds. -/
theorem rootOf_iff (hf : f.ParentsFirst) : f.RootOf id k ↔ k = f.root id := by
  induction id using Nat.strongRecOn with
  | ind id ih =>
    rw [root]
    cases hp : f.parent? id with
    | none =>
      constructor
      · exact fun h => (onChain_of_root hp).1 h.onChain
      · rintro rfl
        exact ⟨OnChain.refl f k, hp⟩
    | some p =>
      dsimp only
      rw [if_pos (hf id p hp), ← ih p (hf id p hp)]
      constructor
      · intro h
        rcases (onChain_of_parent hp).1 h.onChain with rfl | hk
        · rw [h.noParent] at hp
          cases hp
        · exact ⟨hk, h.noParent⟩
      · exact fun h => ⟨.up hp h.onChain, h.noParent⟩

theorem Target.innermost {j : Nat} (h : f.Target id x k) (hj : f.OnChain id j)
    (hx : (f.vars j).has x = true) : f.Innermost id x k := by
  rcases h with h | ⟨hnone, -⟩
  · exact h
  · rw [hnone j hj] at hx
    cases hx

/-- The value of a name is what the innermost scope binds it to. -/
theorem get?_eq_some_iff (hf : f.ParentsFirst) {v : α} :
    f.get? id x = some v ↔ ∃ k, f.Innermost id x k ∧ (f.vars k).get? x = some v := by
  have htarget := home_target hf id x
  constructor
  · intro hv
    refine ⟨f.home id x, ?_, hv⟩
    rcases htarget with hin | ⟨hnone, hroot⟩
    · exact hin
    · have hno := hnone _ hroot.onChain
      rw [Bindings.has_eq, show (f.vars (f.home id x)).get? x = some v from hv] at hno
      cases hno
  · rintro ⟨k, hin, hv⟩
    rw [get?, (htarget.innermost hin.onChain hin.binds).unique hf hin, hv]

/-! ## What giving a value changes -/

/-- From `f` to `g` nothing has changed but what the scope `k` binds `x` to. -/
structure SameBut (k : Nat) (x : String) (f g : Forest α β) : Prop where
  size : g.size = f.size
  parent : ∀ j, g.parent? j = f.parent? j
  mark : ∀ j, g.mark? j = f.mark? j
  vars : ∀ j ≠ k, g.vars j = f.vars j
  others : ∀ y ≠ x, (g.vars k).get? y = (f.vars k).get? y

theorem bind_sameBut (f : Forest α β) (k : Nat) (x : String) (v : α) :
    SameBut k x f (f.bind k x v) where
  size := size_bind
  parent _ := parent?_bind
  mark _ := mark?_bind
  vars _ hj := vars_bind_ne hj
  others _ hy := get?_vars_bind_ne hy

end Forest

/-! ## What can be done with a scope -/

/-- What can be done with a scope. -/
inductive ScopeOp (α : Type) where
  /-- Opens a child that binds some names. -/
  | push (names : List String)
  /-- Goes to the parent. -/
  | pop
  /-- Goes to the root. -/
  | root
  /-- Gives a name a value. -/
  | set (name : String) (value : α)
  /-- Looks a name up. -/
  | get (name : String)
  /-- Asks for a name, where some calls can be nested. -/
  | has (room : Nat) (name : String)

/-- What comes of it. -/
inductive ScopeAnswer (α : Type) where
  /-- A scope; a root has no parent to go to. -/
  | scope (id : Option Nat)
  | nothing
  /-- A value; a name that is not bound has none. -/
  | value (v : Option α)
  /-- Whether the name is there; it can take too many calls to say. -/
  | truth (b : Option Bool)

namespace ScopeOp

variable {α β : Type} {f : Forest α β}

/-- Does something with the scope `id`; `blank` is what a child binds its names to. -/
def run (blank : α) (f : Forest α β) (id : Nat) : ScopeOp α → ScopeAnswer α × Forest α β
  | push names => (.scope (f.push id names blank).1, (f.push id names blank).2)
  | pop => (.scope (f.parent? id), f)
  | root => (.scope (f.root id), f)
  | set name value => (.nothing, f.set id name value)
  | get name => (.value (f.get? id name), f)
  | has room name => (.truth (f.has? room id name), f)

/-- One empty scope. -/
def start : Forest α β := Forest.empty.addRoot.2

def runAll (blank : α) : List (Nat × ScopeOp α) → Forest α β → Forest α β
  | [], f => f
  | (id, op) :: ops, f => runAll blank ops (if id < f.size then (op.run blank f id).2 else f)

theorem runAll_append (blank : α) (ops more : List (Nat × ScopeOp α)) (f : Forest α β) :
    runAll blank (ops ++ more) f = runAll blank more (runAll blank ops f) := by
  induction ops generalizing f with
  | nil => rfl
  | cons op ops ih => exact ih _

/-! ## Parents come first -/

theorem parentsFirst_start : (start : Forest α β).ParentsFirst := by
  intro i p hp
  have hnone : (start : Forest α β).parent? i = none := by
    cases i <;> simp [start, Forest.addRoot, Forest.add, Forest.empty, Forest.parent?]
  rw [hnone] at hp
  cases hp

theorem parentsFirst_push {id : Nat} (hf : f.ParentsFirst) (hid : id < f.size)
    (names : List String) (blank : α) : (f.push id names blank).2.ParentsFirst := by
  have hkept := f.push_kept id names blank
  intro i p hp
  rcases Nat.lt_trichotomy i f.size with hlt | rfl | hgt
  · rw [hkept.grown.parent i hlt] at hp
    exact hf i p hp
  · rw [f.parent?_push id names blank] at hp
    cases hp
    exact hid
  · have hnone : (f.push id names blank).2.scopes[i]? = none := by
      refine Array.getElem?_eq_none ?_
      have hsize := f.size_push id names blank
      simp only [Forest.size] at hsize hgt
      omega
    rw [Forest.parent?, hnone] at hp
    cases hp

theorem parentsFirst_run {id : Nat} (hf : f.ParentsFirst) (hid : id < f.size) (blank : α)
    (op : ScopeOp α) : (op.run blank f id).2.ParentsFirst := by
  cases op with
  | push names => exact parentsFirst_push hf hid names blank
  | set name value =>
    intro i p hp
    exact hf i p (Forest.parent?_bind.symm.trans hp)
  | pop => exact hf
  | root => exact hf
  | get name => exact hf
  | has room name => exact hf

theorem parentsFirst_runAll (blank : α) (ops : List (Nat × ScopeOp α)) :
    ∀ f : Forest α β, f.ParentsFirst → (runAll blank ops f).ParentsFirst := by
  induction ops with
  | nil => exact fun f hf => hf
  | cons op ops ih =>
    intro f hf
    refine ih _ ?_
    split_ifs with hid
    · exact parentsFirst_run hf hid blank op.2
    · exact hf

end ScopeOp

/-- **Looking up, asking and giving a value agree.**  In every forest that comes of one empty scope,
    for every scope and every name: the question whether the name is there goes up to the innermost
    scope that binds it or, if no scope does, to the root; if that many calls can be nested, the
    answer is yes exactly if the name has a value, and otherwise there is no answer.  The value is
    what the innermost scope binds the name to; and the name is given a value there or, if no scope
    binds it, in the root.  It then has this value, and nothing else changes anywhere. -/
theorem lookup_test_update_agree {α β : Type} {blank : α} {ops : List (Nat × ScopeOp α)}
    {f : Forest α β} (hf : ScopeOp.runAll blank ops ScopeOp.start = f) {id : Nat}
    (hid : id < f.size) (x : String) :
    (∃ n k, f.Above n id k ∧ f.Target id x k ∧ (∀ room ≤ n, f.has? room id x = none) ∧
      ∀ room > n, ∃ b, f.has? room id x = some b ∧
        (b = true ↔ ∃ v, f.get? id x = some v)) ∧
    (∀ v, f.get? id x = some v ↔ ∃ k, f.Innermost id x k ∧ (f.vars k).get? x = some v) ∧
    (∀ k, f.RootOf id k ↔ k = f.root id) ∧
    ∀ v, (f.set id x v).get? id x = some v ∧
      ∃ k < f.size, f.Target id x k ∧ ((f.set id x v).vars k).get? x = some v ∧
        Forest.SameBut k x f (f.set id x v) := by
  have hfirst : f.ParentsFirst :=
    hf ▸ ScopeOp.parentsFirst_runAll blank ops _ ScopeOp.parentsFirst_start
  have htarget := Forest.home_target hfirst id x
  refine ⟨?_, fun v => Forest.get?_eq_some_iff hfirst, fun k => Forest.rootOf_iff hfirst, ?_⟩
  · obtain ⟨n, habove, hsmall, hlarge⟩ := Forest.has?_spec hfirst id x
    refine ⟨n, _, habove, htarget, hsmall, fun room hroom => ⟨_, hlarge room hroom, ?_⟩⟩
    rw [Bindings.has_eq]
    exact Option.isSome_iff_exists
  · intro v
    have hhome : f.home id x < f.size := (f.home_le x id).trans_lt hid
    refine ⟨Forest.get?_set_self hid, f.home id x, hhome, htarget, ?_, ?_⟩
    · rw [Forest.set, Forest.vars_bind_self hhome, Bindings.get?_set, if_pos rfl]
    · exact Forest.bind_sameBut f (f.home id x) x v

/-- Two children of the empty scope: the first binds `x`, and below the second it is bound nowhere.
    There it gets its value in the root, and the first child keeps its own. -/
theorem lookup_test_update_agree_siblings :
    let f : Forest Nat Nat :=
      ScopeOp.runAll 0 [(0, .push ["x"]), (0, .push ["y"]), (2, .push [])] ScopeOp.start
    3 < f.size ∧ f.has? 1 1 "x" = some true ∧ f.has? 2 3 "x" = none ∧ f.has? 3 3 "x" = some false ∧
    (∃ n k, f.Above n 3 k ∧ f.Target 3 "x" k ∧ ∀ room ≤ n, f.has? room 3 "x" = none) ∧
    (∃ k, f.Target 3 "x" k ∧ ((f.set 3 "x" 7).vars k).get? "x" = some 7 ∧
      Forest.SameBut k "x" f (f.set 3 "x" 7)) ∧
    ((f.set 3 "x" 7).vars 0).get? "x" = some 7 ∧ (f.set 3 "x" 7).get? 1 "x" = some 0 := by
  intro f
  have hsize : 3 < f.size := by decide
  obtain ⟨⟨n, k, habove, htarget, hsmall, -⟩, -, -, hset⟩ :=
    lookup_test_update_agree (rfl : _ = f) hsize "x"
  obtain ⟨-, l, -, hl⟩ := hset 7
  refine ⟨hsize, ?_, ?_, ?_, ⟨n, k, habove, htarget, hsmall⟩, ⟨l, hl⟩, ?_, ?_⟩ <;> decide +kernel

/-! ## A chain that is too long -/

/-- A root that binds `x`, and `n` scopes one below the other. -/
def ladder : Nat → Forest Nat Nat
  | 0 => ScopeOp.start.set 0 "x" 7
  | n + 1 => ((ladder n).push n [] 0).2

namespace ladder

theorem size_eq (n : Nat) : (ladder n).size = n + 1 := by
  induction n with
  | zero => exact Forest.size_bind
  | succ n ih => rw [ladder, Forest.size_push, ih]

theorem eq_runAll (n : Nat) : ladder n =
    ScopeOp.runAll 0 ((0, .set "x" 7) :: (List.range n).map fun i => (i, .push []))
      ScopeOp.start := by
  induction n with
  | zero => rfl
  | succ n ih =>
    rw [List.range_succ, List.map_append, ← List.cons_append, ScopeOp.runAll_append, ← ih]
    have hn : n < (ladder n).size := by rw [size_eq]; exact Nat.lt_succ_self n
    exact (if_pos hn).symm

/-- Every rung is below the one before. -/
theorem parent?_eq {n k : Nat} (hk : k < n) : (ladder n).parent? (k + 1) = some k := by
  induction n with
  | zero => exact absurd hk (Nat.not_lt_zero k)
  | succ n ih =>
    rcases Nat.lt_succ_iff_lt_or_eq.1 hk with hk | rfl
    · rw [ladder, ((ladder n).push_kept n [] 0).grown.parent _ (by rw [size_eq]; omega), ih hk]
    · have hlast := (ladder k).parent?_push k [] 0
      rw [size_eq] at hlast
      exact hlast

/-- Only the root binds the name. -/
theorem get?_vars {n k : Nat} (hk : k ≤ n) :
    ((ladder n).vars k).get? "x" = if k = 0 then some 7 else none := by
  induction n with
  | zero =>
    have hset : (ladder 0).get? 0 "x" = some 7 := Forest.get?_set_self Nat.zero_lt_one
    rw [Forest.get?, Nat.le_zero.1 ((ladder 0).home_le "x" 0)] at hset
    rw [Nat.le_zero.1 hk, hset, if_pos rfl]
  | succ n ih =>
    rcases Nat.le_succ_iff.1 hk with hk | rfl
    · rw [ladder, ((ladder n).push_kept n [] 0).vars (by rw [size_eq]; omega), ih hk]
    · have hlast := (ladder n).get?_vars_push n [] 0 "x"
      rw [size_eq] at hlast
      exact hlast

theorem has_vars {n k : Nat} (hk : k < n) : ((ladder n).vars (k + 1)).has "x" = false := by
  rw [Bindings.has_eq, get?_vars hk]
  rfl

/-- The name has its value on every rung. -/
theorem get?_eq {n k : Nat} (hk : k ≤ n) : (ladder n).get? k "x" = some 7 := by
  have hhome : (ladder n).home k "x" = 0 := by
    induction k with
    | zero => exact Nat.le_zero.1 ((ladder n).home_le "x" 0)
    | succ k ih =>
      rw [Forest.home_of_parent (has_vars hk) (parent?_eq hk) (Nat.lt_succ_self k),
        ih (Nat.le_of_succ_le hk)]
  rw [Forest.get?, hhome, get?_vars (Nat.zero_le n), if_pos rfl]

/-- To ask for it takes one call more than there are rungs above. -/
theorem has?_eq_none {n k : Nat} (hk : k ≤ n) : (ladder n).has? k k "x" = none := by
  induction k with
  | zero => rfl
  | succ k ih =>
    rw [Forest.has?, has_vars hk, parent?_eq hk]
    exact ih (Nat.le_of_succ_le hk)

end ladder

/-- On a chain with more scopes than calls can be nested, a name has a value, but it cannot be asked
    for. -/
theorem long_chain_cannot_be_asked :
    ∃ ops : List (Nat × ScopeOp Nat),
      let f : Forest Nat Nat := ScopeOp.runAll 0 ops ScopeOp.start
      depthLimit < f.size ∧ f.get? depthLimit "x" = some 7 ∧
        f.has? depthLimit depthLimit "x" = none := by
  refine ⟨(0, .set "x" 7) :: (List.range depthLimit).map fun i => (i, .push []), ?_⟩
  rw [← ladder.eq_runAll depthLimit]
  refine ⟨?_, ladder.get?_eq le_rfl, ladder.has?_eq_none le_rfl⟩
  rw [ladder.size_eq]
  exact Nat.lt_succ_self depthLimit

end ExprLang
