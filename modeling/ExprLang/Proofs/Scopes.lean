/-
  Bindings and scopes.

  What a name means in some bindings after one of them was set (`Bindings.get?_set`), and which
  scope a name refers to when the forest of scopes grows:

  * `Forest.Kept f g`: all scopes of `f` stand in `g` as they are;
  * `Forest.Grown f g`: they stand there with the same names and parents, but what the names are
    bound to may have changed.  A name then refers to the same scope as before (`home_eq`);
  * `Forest.KeptBut id f g`: that holds, and only the scope `id` may have changed.
-/
import ExprLang.Scope
import ExprLang.Code.Gen
import Mathlib.Order.Nat

namespace ExprLang

/-! ## Bindings -/

theorem any_eq_isSome_lookup {γ : Type} (x : String) (l : List (String × γ)) :
    l.any (·.1 == x) = (l.lookup x).isSome := by
  rw [Bool.eq_iff_iff, List.lookup_isSome_iff, List.any_eq_true]
  exact ⟨fun ⟨p, hp, h⟩ => ⟨p, hp, by simpa using (beq_iff_eq.1 h).symm⟩,
    fun ⟨p, hp, h⟩ => ⟨p, hp, by simpa using (beq_iff_eq.1 h).symm⟩⟩

theorem lookup_replace {γ : Type} (x : String) (a : γ) (y : String) :
    ∀ l : List (String × γ), (l.map fun (n, c) => if n == x then (n, a) else (n, c)).lookup y =
      (l.lookup y).map fun c => if y = x then a else c
  | [] => rfl
  | (z, c) :: l => by
    have ih := lookup_replace x a y l
    have hfst : (if z == x then (z, a) else (z, c)) = (z, if z = x then a else c) := by
      by_cases hx : z = x <;> simp [hx]
    rw [List.map_cons]
    dsimp only
    rw [hfst, List.lookup_cons, List.lookup_cons]
    by_cases hz : y = z
    · subst hz; simp
    · have hyz : (y == z) = false := by simpa using hz
      rw [hyz, ih]

namespace Bindings

variable {α : Type} (bs : Bindings α)

theorem has_eq (x : String) : bs.has x = (bs.get? x).isSome := any_eq_isSome_lookup x bs

theorem get?_set (x : String) (a : α) (y : String) :
    (bs.set x a).get? y = if y = x then some a else bs.get? y := by
  unfold set
  rw [has_eq]
  split
  · rename_i h
    rw [get?, lookup_replace]
    by_cases hy : y = x
    · subst hy
      obtain ⟨c, hc⟩ := Option.isSome_iff_exists.1 h
      rw [get?] at hc
      simp [hc]
    · simp [hy, get?]
  · rename_i h
    have hn : bs.lookup x = none := Option.not_isSome_iff_eq_none.1 h
    rw [get?, get?, List.lookup_append, List.lookup_cons]
    by_cases hy : y = x
    · subst hy; simp [hn]
    · have hyx : (y == x) = false := by simpa using hy
      simp [hy, hyx]

theorem has_set (x : String) (a : α) (y : String) : (bs.set x a).has y = (y = x || bs.has y) := by
  rw [has_eq, has_eq, get?_set]
  split <;> simp_all

theorem get?_foldl_set (a : α) (y : String) : ∀ (names : List String) (bs : Bindings α),
    (names.foldl (fun bs n => bs.set n a) bs).get? y = if y ∈ names then some a else bs.get? y
  | [], bs => by simp
  | x :: xs, bs => by
    rw [List.foldl_cons, get?_foldl_set a y xs, get?_set]
    by_cases h : y ∈ xs <;> by_cases hx : y = x <;> simp [h, hx]

end Bindings

theorem Slots.lookup_put (slots : Slots) (x : String) (a : Slot) (y : String) :
    (slots.put x a).lookup y = if y = x then some a else slots.lookup y :=
  Bindings.get?_set slots x a y

/-! ## Scopes -/

namespace Forest

variable {α β : Type} {f g h : Forest α β} {k id : Nat} {x : String}

/-- The number of scopes. -/
def size (f : Forest α β) : Nat := f.scopes.size

/-- All scopes of `f` stand in `g` as they are. -/
structure Kept (f g : Forest α β) : Prop where
  size_le : f.size ≤ g.size
  scope : ∀ k < f.size, g.scopes[k]? = f.scopes[k]?

/-- All scopes of `f` stand in `g` with the same names and parents. -/
structure Grown (f g : Forest α β) : Prop where
  size_le : f.size ≤ g.size
  parent : ∀ k < f.size, g.parent? k = f.parent? k
  has : ∀ k < f.size, ∀ x, (g.vars k).has x = (f.vars k).has x

namespace Kept

theorem refl (f : Forest α β) : Kept f f := ⟨le_rfl, fun _ _ => rfl⟩

theorem trans (hfg : Kept f g) (hgh : Kept g h) : Kept f h :=
  ⟨hfg.size_le.trans hgh.size_le, fun k hk =>
    (hgh.scope k (hk.trans_le hfg.size_le)).trans (hfg.scope k hk)⟩

theorem vars (hfg : Kept f g) (hk : k < f.size) : g.vars k = f.vars k := by
  rw [Forest.vars, Forest.vars, hfg.scope k hk]

theorem grown (hfg : Kept f g) : Grown f g :=
  ⟨hfg.size_le, fun k hk => by rw [parent?, parent?, hfg.scope k hk],
    fun k hk x => by rw [hfg.vars hk]⟩

end Kept

namespace Grown

theorem refl (f : Forest α β) : Grown f f := (Kept.refl f).grown

theorem trans (hfg : Grown f g) (hgh : Grown g h) : Grown f h :=
  ⟨hfg.size_le.trans hgh.size_le,
    fun k hk => (hgh.parent k (hk.trans_le hfg.size_le)).trans (hfg.parent k hk),
    fun k hk x => (hgh.has k (hk.trans_le hfg.size_le) x).trans (hfg.has k hk x)⟩

end Grown

/-- The scopes of `f` stand in `g`, and only what `id` binds its names to may have changed. -/
structure KeptBut (id : Nat) (f g : Forest α β) : Prop extends Grown f g where
  scope : ∀ k < f.size, k ≠ id → g.scopes[k]? = f.scopes[k]?

namespace KeptBut

theorem refl (id : Nat) (f : Forest α β) : KeptBut id f f := ⟨.refl f, fun _ _ _ => rfl⟩

theorem trans (hfg : KeptBut id f g) (hgh : KeptBut id g h) : KeptBut id f h :=
  ⟨hfg.toGrown.trans hgh.toGrown, fun k hk hne =>
    (hgh.scope k (hk.trans_le hfg.size_le) hne).trans (hfg.scope k hk hne)⟩

end KeptBut

theorem Kept.keptBut (hfg : Kept f g) (id : Nat) : KeptBut id f g :=
  ⟨hfg.grown, fun k hk _ => hfg.scope k hk⟩

/-- Only a scope that was added has changed since. -/
theorem Kept.trans_keptBut (hfg : Kept f g) (hgh : KeptBut f.size g h) : Kept f h :=
  ⟨hfg.size_le.trans hgh.size_le, fun k hk =>
    (hgh.scope k (hk.trans_le hfg.size_le) hk.ne).trans (hfg.scope k hk)⟩

theorem home_of_has (hx : (f.vars id).has x = true) : f.home id x = id := by
  rw [home, if_pos hx]

theorem home_of_parent {p : Nat} (hx : (f.vars id).has x = false) (hp : f.parent? id = some p)
    (hlt : p < id) : f.home id x = f.home p x := by
  rw [home, if_neg (by simp [hx]), hp]
  simp [hlt]

/-- Names refer to the same scopes as before if the parents are the same and so are the names in
    all scopes that have one. -/
theorem home_eq_of (hparent : ∀ k < f.size, g.parent? k = f.parent? k)
    (hhas : ∀ k < f.size, f.parent? k ≠ none → ∀ x, (g.vars k).has x = (f.vars k).has x)
    (x : String) (id : Nat) (hid : id < f.size) : g.home id x = f.home id x := by
  induction id using Nat.strongRecOn with
  | ind id ih =>
    rw [home, home, hparent id hid]
    cases hp : f.parent? id with
    | none => simp
    | some p =>
      rw [hhas id hid (by rw [hp]; exact nofun)]
      dsimp only
      split
      · rfl
      · split
        · rename_i hlt
          exact ih p hlt (hlt.trans hid)
        · rfl

/-- **When a forest grows, names refer to the same scopes as before.** -/
theorem Grown.home_eq (hfg : Grown f g) (x : String) (id : Nat) (hid : id < f.size) :
    g.home id x = f.home id x :=
  home_eq_of hfg.parent (fun k hk _ => hfg.has k hk) x id hid

/-! ## New scopes and new bindings -/

section push
variable (f) (id : Nat) (names : List String) (a : α)

theorem size_push : (f.push id names a).2.size = f.size + 1 := by simp [push, add, size]

theorem push_kept : Kept f (f.push id names a).2 := by
  refine ⟨by rw [size_push]; omega, fun k hk => ?_⟩
  have hk' : k < f.scopes.size := hk
  simp only [push, add, Array.getElem?_push]
  rw [if_neg (by omega)]

theorem parent?_push : (f.push id names a).2.parent? f.size = some id := by
  simp [push, add, parent?, size]

theorem get?_vars_push (x : String) :
    ((f.push id names a).2.vars f.size).get? x = if x ∈ names then some a else none := by
  have hv : (f.push id names a).2.vars f.size =
      names.foldl (fun bs n => Bindings.set bs n a) [] := by
    simp [push, add, vars, size]
  rw [hv, Bindings.get?_foldl_set]
  rfl

theorem has_vars_push (x : String) :
    ((f.push id names a).2.vars f.size).has x = decide (x ∈ names) := by
  rw [Bindings.has_eq, get?_vars_push]
  split <;> simp_all

theorem home_push_of_mem {x : String} (hx : x ∈ names) :
    (f.push id names a).2.home f.size x = f.size :=
  home_of_has (by rw [has_vars_push]; exact decide_eq_true hx)

theorem home_push_of_not_mem {x : String} (hid : id < f.size) (hx : x ∉ names) :
    (f.push id names a).2.home f.size x = f.home id x := by
  rw [home_of_parent (by rw [has_vars_push]; exact decide_eq_false hx) (parent?_push ..) hid]
  exact (push_kept ..).grown.home_eq x id hid

end push

section bind
variable {a : α}

theorem size_bind : (f.bind id x a).size = f.size := by simp [bind, modify, size]

theorem scope_bind_ne (hk : k ≠ id) : (f.bind id x a).scopes[k]? = f.scopes[k]? := by
  simp only [bind, modify, Array.getElem?_modify]
  rw [if_neg (fun h => hk h.symm)]

theorem parent?_bind : (f.bind id x a).parent? k = f.parent? k := by
  simp only [parent?, bind, modify, Array.getElem?_modify]
  split <;> cases f.scopes[k]? <;> rfl

theorem vars_bind_ne (hk : k ≠ id) : (f.bind id x a).vars k = f.vars k := by
  rw [vars, vars, scope_bind_ne hk]

theorem vars_bind_self (hid : id < f.size) : (f.bind id x a).vars id = (f.vars id).set x a := by
  have hs : f.scopes[id]? = some f.scopes[id] := Array.getElem?_eq_getElem hid
  simp [vars, bind, modify, Array.getElem?_modify, hs]

/-- A name that a scope already binds gets another value. -/
theorem bind_keptBut (hid : id < f.size) (hx : (f.vars id).has x = true) :
    KeptBut id f (f.bind id x a) := by
  refine ⟨⟨size_bind.ge, fun k _ => parent?_bind, fun k hk y => ?_⟩,
    fun k _ hne => scope_bind_ne hne⟩
  by_cases hki : k = id
  · subst hki
    rw [vars_bind_self hid, Bindings.has_set]
    by_cases hy : y = x
    · subst hy; simp [hx]
    · simp [hy]
  · rw [vars_bind_ne hki]

theorem set_eq_bind (hx : (f.vars id).has x = true) : f.set id x a = f.bind id x a := by
  rw [set, home_of_has hx]

theorem set_keptBut (hid : id < f.size) (hx : (f.vars id).has x = true) :
    KeptBut id f (f.set id x a) :=
  set_eq_bind hx ▸ bind_keptBut hid hx

theorem home_le (f : Forest α β) (x : String) (id : Nat) : f.home id x ≤ id := by
  induction id using Nat.strongRecOn with
  | ind id ih =>
    rw [home]
    split
    · exact le_rfl
    · split
      · exact le_rfl
      · split_ifs with hlt
        · exact (ih _ hlt).trans hlt.le
        · exact le_rfl

/-- A name that gets a value refers to the same scope as before. -/
theorem home_set_self (hid : id < f.size) : (f.set id x a).home id x = f.home id x := by
  rw [set]
  induction id using Nat.strongRecOn with
  | ind id ih =>
    by_cases hhome : f.home id x = id
    · rw [hhome]
      refine home_of_has ?_
      rw [vars_bind_self hid, Bindings.has_set]
      simp
    · -- The scope itself neither binds the name nor is a root, so its parent is asked.
      have hx : (f.vars id).has x = false := by
        by_contra h
        exact hhome (home_of_has (by simpa using h))
      obtain ⟨p, hp, hlt⟩ : ∃ p, f.parent? id = some p ∧ p < id := by
        rw [home, if_neg (by simp [hx])] at hhome
        split at hhome
        · exact absurd rfl hhome
        · next p hp =>
          split_ifs at hhome with hlt
          · exact ⟨p, hp, hlt⟩
          · exact absurd rfl hhome
      have hup := home_of_parent hx hp hlt
      have hne : id ≠ f.home p x := ((f.home_le x p).trans_lt hlt).ne'
      rw [hup, home_of_parent (by rw [vars_bind_ne hne]; exact hx) (parent?_bind.trans hp) hlt]
      exact ih p hlt (hlt.trans hid)

/-- What was written is read. -/
theorem get?_set_self (hid : id < f.size) : (f.set id x a).get? id x = some a := by
  rw [get?, home_set_self hid, set, vars_bind_self ((f.home_le x id).trans_lt hid),
    Bindings.get?_set, if_pos rfl]

theorem get?_vars_bind_ne {y : String} (hy : y ≠ x) :
    ((f.bind id x a).vars k).get? y = (f.vars k).get? y := by
  by_cases hk : k = id
  · subst hk
    by_cases hlt : k < f.size
    · rw [vars_bind_self hlt, Bindings.get?_set, if_neg hy]
    · have hnone : f.scopes[k]? = none := Array.getElem?_eq_none (Nat.le_of_not_lt hlt)
      simp [vars, bind, modify, Array.getElem?_modify, hnone]
  · rw [vars_bind_ne hk]

/-- All other names are read as before. -/
theorem get?_set_ne {y : String} (hy : y ≠ x) : (f.set id x a).get? k y = f.get? k y := by
  rw [set]
  generalize f.home id x = n
  have hhome : (f.bind n x a).home k y = f.home k y := by
    induction k using Nat.strongRecOn with
    | ind k ih =>
      rw [home, home, parent?_bind, Bindings.has_eq, Bindings.has_eq, get?_vars_bind_ne hy]
      split_ifs with hhas
      · rfl
      · split
        · rfl
        · split_ifs with hlt
          · exact ih _ hlt
          · rfl
  rw [get?, get?, hhome, get?_vars_bind_ne hy]

end bind

end Forest

end ExprLang
