/-
  Regions of scopes.

  A scope is either one that code runs in or a struct.  A `Region` says which, for some of the
  scopes, and with what they were made: the parent, the struct that `this` means, and the names.

  `r.Holds f`: in the forest `f` the scopes of the region are what it says, and neither their
  values nor their parents lead out of it.  So no code ever runs in a struct, and none of the region
  touches a scope outside of it:

  * `Step r f r' g`: from `f` to `g` the region has grown from `r` to `r'` by all the new scopes,
    no name was lost, and all scopes outside of it are as they were;
  * `PlainStep r f r' g`: so are the structs in it, and no new scope is a root for code.

  Binding a name (`Keeps.bind`, `Keeps.set`) and adding a scope (`Holds.add`) are such steps.
-/
import ExprLang.Proofs.References
import ExprLang.Proofs.Scopes

namespace ExprLang

/-! ## Scopes and what was added or bound in them -/

namespace Bindings

variable {α : Type} {bs : Bindings α} {x : String} {a : α}

theorem mem_of_get? (h : bs.get? x = some a) : ∃ b ∈ bs, b.2 = a := by
  obtain ⟨before, after, rfl, -⟩ := List.lookup_eq_some_iff.1 h
  exact ⟨(x, a), by simp, rfl⟩

theorem mem_set {b : String × α} (h : b ∈ bs.set x a) : b ∈ bs ∨ b.2 = a := by
  unfold set at h
  split at h
  · obtain ⟨c, hc, rfl⟩ := List.mem_map.1 h
    dsimp only
    split
    · exact .inr rfl
    · exact .inl hc
  · rcases List.mem_append.1 h with h | h
    · exact .inl h
    · exact .inr (by rw [List.mem_singleton.1 h])

theorem mem_foldl_set {b : String × α} : ∀ (new bs : Bindings α),
    b ∈ new.foldl (fun bs c => bs.set c.1 c.2) bs → b ∈ bs ∨ ∃ c ∈ new, b.2 = c.2
  | [], _, h => .inl h
  | c :: new, bs, h => by
    rcases mem_foldl_set new (bs.set c.1 c.2) h with h | ⟨d, hd, h⟩
    · rcases mem_set h with h | h
      · exact .inl h
      · exact .inr ⟨c, by simp, h⟩
    · exact .inr ⟨d, by simp [hd], h⟩

theorem snd_of_mem_foldl_set {b : String × α} {names : List String}
    (h : b ∈ names.foldl (fun bs n => set bs n a) []) : b.2 = a := by
  have hmap : names.foldl (fun bs n => set bs n a) [] =
      (names.map (·, a)).foldl (fun bs c => set bs c.1 c.2) [] := by rw [List.foldl_map]
  rw [hmap] at h
  rcases mem_foldl_set _ [] h with h | ⟨c, hc, h⟩
  · cases h
  · obtain ⟨n, -, rfl⟩ := List.mem_map.1 hc
    exact h

theorem has_iff : bs.has x = true ↔ x ∈ bs.map (·.1) := by simp [has]

/-- Setting a name that is bound binds no other. -/
theorem has_set_eq (hx : bs.has x = true) (y : String) : (bs.set x a).has y = bs.has y := by
  rw [has_set]
  by_cases hy : y = x
  · rw [hy, hx, Bool.or_true]
  · simp [hy]

/-- A name is not lost. -/
theorem has_set_of_has {y : String} (h : bs.has y = true) : (bs.set x a).has y = true := by
  rw [has_set, h, Bool.or_true]

end Bindings

namespace Forest

variable {α β : Type} {f : Forest α β} {k id : Nat} {s : Scope α β}

theorem lt_size (h : f.scopes[k]? = some s) : k < f.size := (Array.getElem?_eq_some_iff.1 h).1

theorem mark?_of_size_le (h : f.size ≤ k) : f.mark? k = none := by
  rw [mark?, Array.getElem?_eq_none h]
  rfl

theorem size_add (f : Forest α β) (s : Scope α β) : (f.add s).2.size = f.size + 1 := by
  simp [add, size]

theorem scope_add_self (f : Forest α β) (s : Scope α β) :
    (f.add s).2.scopes[f.size]? = some s := by
  simp [add, size]

theorem scope_add_lt (hk : k < f.size) : (f.add s).2.scopes[k]? = f.scopes[k]? := by
  have hk' : k < f.scopes.size := hk
  simp only [add, Array.getElem?_push]
  rw [if_neg (by omega)]

theorem modify_add (f : Forest α β) (s : Scope α β) (change : Scope α β → Scope α β) :
    (f.add s).2.modify f.size change = (f.add (change s)).2 := by
  simp only [modify, add, size, Forest.mk.injEq]
  ext i : 1
  · simp
  · simp only [Array.getElem_modify, Array.getElem_push]
    rename_i hi _
    rw [Array.size_modify, Array.size_push] at hi
    by_cases hlt : i < f.scopes.size
    · rw [if_neg (by omega)]
      simp [hlt]
    · rw [if_pos (by omega)]
      simp [hlt]

theorem bind_all_add (f : Forest α β) : ∀ (new : Bindings α) (s : Scope α β),
    new.foldl (fun g c => g.bind f.size c.1 c.2) (f.add s).2 =
      (f.add { s with vars := new.foldl (fun bs c => bs.set c.1 c.2) s.vars }).2
  | [], _ => rfl
  | c :: new, s => by
    rw [List.foldl_cons, bind, modify_add, bind_all_add f new]
    rfl

theorem scope_bind_self {x : String} {a : α} (h : f.scopes[id]? = some s) :
    (f.bind id x a).scopes[id]? = some { s with vars := s.vars.set x a } := by
  simp [bind, modify, Array.getElem?_modify, h]

theorem mark?_bind {x : String} {a : α} : (f.bind id x a).mark? k = f.mark? k := by
  simp only [mark?, bind, modify, Array.getElem?_modify]
  split <;> cases f.scopes[k]? <;> rfl

/-- What a scope's parents have in common with it, the home of a name has too. -/
theorem home_of_parents {P : Nat → Prop} (hP : ∀ k p, P k → f.parent? k = some p → P p)
    (x : String) (id : Nat) (hid : P id) : P (f.home id x) := by
  induction id using Nat.strongRecOn with
  | ind id ih =>
    rw [home]
    split
    · exact hid
    · split
      · exact hid
      · rename_i p hp
        split
        · rename_i hlt
          exact ih p hlt (hP id p hid hp)
        · exact hid

theorem has_home_or_root {P : Nat → Prop} (hP : ∀ k p, P k → f.parent? k = some p → P p)
    (hlt : ∀ k p, P k → f.parent? k = some p → p < k) (x : String) (id : Nat) (hid : P id) :
    (f.vars (f.home id x)).has x = true ∨ f.parent? (f.home id x) = none := by
  induction id using Nat.strongRecOn with
  | ind id ih =>
    rw [home]
    split
    · rename_i hx
      exact .inl hx
    · split
      · rename_i hp
        exact .inr hp
      · rename_i p hp
        rw [if_pos (hlt id p hid hp)]
        exact ih p (hlt id p hid hp) (hP id p hid hp)

theorem has_vars_bind {x y : String} {a : α} (h : (f.vars k).has y = true) :
    ((f.bind id x a).vars k).has y = true := by
  by_cases hk : k = id
  · subst hk
    cases hs : f.scopes[k]? with
    | none =>
      rw [vars, hs] at h
      cases h
    | some s =>
      rw [vars, hs] at h
      rw [vars, scope_bind_self hs]
      exact Bindings.has_set_of_has h
  · rwa [vars_bind_ne hk]

theorem root_of_parents {P : Nat → Prop} (hP : ∀ k p, P k → f.parent? k = some p → P p)
    (id : Nat) (hid : P id) : P (f.root id) := by
  induction id using Nat.strongRecOn with
  | ind id ih =>
    rw [root]
    split
    · exact hid
    · rename_i p hp
      split
      · rename_i hlt
        exact ih p hlt (hP id p hid hp)
      · exact hid

end Forest

/-! ## Regions -/

/-- What a scope is for. -/
inductive Role where
  /-- Code runs in it.  `within` is the struct that it belongs to, `outer` is its parent.  If it has
      one, it binds just these names; a root may come to bind any. -/
  | code (within outer : Option Nat) (names : List String)
  /-- It is a struct with this parent and with members of these names. -/
  | struct (outer : Option Nat) (names : List String)

/-- The roles of some scopes. -/
def Region := Nat → Option Role

namespace Region

def empty : Region := fun _ => none

def put (r : Region) (k : Nat) (role : Role) : Region := fun i => if i = k then some role else r i

/-- Code runs in the scope `k`, and belongs to the struct `within`. -/
def Within (r : Region) (k : Nat) (within : Option Nat) : Prop :=
  ∃ outer names, r k = some (.code within outer names)

/-- The scope `k` is a struct with members of these names. -/
def Members (r : Region) (k : Nat) (names : List String) : Prop :=
  ∃ outer, r k = some (.struct outer names)

/-- A reference is to a scope of the region, which has the role that it should have. -/
def Has (r : Region) : Ref → Prop
  | .code k => ∃ within, r.Within k within
  | .struct k => ∃ names, r.Members k names

def Root (r : Region) (k : Nat) : Prop := ∃ within names, r k = some (.code within none names)

def Sub (r r' : Region) : Prop := ∀ k role, r k = some role → r' k = some role

/-- A scope has a role in a region, and leads to nothing outside of the region. -/
inductive Fits (r : Region) (s : Scope Value Nat) : Role → Prop where
  | code {names : List String} (values : ∀ b ∈ s.vars, b.2.Only r.Has)
    (owner : ∀ k, s.mark = some k → r.Has (.struct k))
    (outer : ∀ p, s.parent = some p → r.Has (.code p))
    (bound : s.parent ≠ none → ∀ x, s.vars.has x = true ↔ x ∈ names) :
    Fits r s (.code s.mark s.parent names)
  | struct {names : List String} (values : ∀ b ∈ s.vars, b.2.Only r.Has)
    (members : ∀ x, s.vars.has x = true ↔ x ∈ names) (unmarked : s.mark = none)
    (above : ∀ p, s.parent = some p → r.Has (.struct p)) : Fits r s (.struct s.parent names)

/-- The scopes of a region are what it says, and their parents are older. -/
def Holds (r : Region) (f : Forest Value Nat) : Prop :=
  ∀ k role, r k = some role → ∃ s, f.scopes[k]? = some s ∧ (∀ p, s.parent = some p → p < k) ∧
    r.Fits s role

variable {r r' r'' : Region} {f g h : Forest Value Nat} {s : Scope Value Nat} {role : Role}
  {k : Nat} {own : Option Nat} {x : String} {v : Value}

theorem Sub.refl (r : Region) : r.Sub r := fun _ _ h => h

theorem Sub.trans (h : r.Sub r') (h' : r'.Sub r'') : r.Sub r'' :=
  fun k role hk => h' k role (h k role hk)

theorem Sub.within (h : r.Sub r') : r.Within k own → r'.Within k own
  | ⟨outer, names, hk⟩ => ⟨outer, names, h k _ hk⟩

theorem Sub.members (h : r.Sub r') {names : List String} :
    r.Members k names → r'.Members k names
  | ⟨outer, hk⟩ => ⟨outer, h k _ hk⟩

theorem Sub.has (h : r.Sub r') : ∀ ref, r.Has ref → r'.Has ref
  | .code _, ⟨within, hk⟩ => ⟨within, h.within hk⟩
  | .struct _, ⟨names, hk⟩ => ⟨names, h.members hk⟩

theorem Sub.only (h : r.Sub r') (hv : v.Only r.Has) : v.Only r'.Has := hv.mono h.has

theorem Within.has (h : r.Within k own) : r.Has (.code k) := ⟨own, h⟩

theorem Root.has (h : r.Root k) : r.Has (.code k) := by
  obtain ⟨own, names, h⟩ := h
  exact ⟨own, none, names, h⟩

theorem put_self : r.put k role k = some role := if_pos rfl

theorem put_of_ne {i : Nat} (h : i ≠ k) : r.put k role i = r i := if_neg h

theorem sub_put (h : r k = none) : r.Sub (r.put k role) := by
  intro i role' hi
  rw [put_of_ne (by rintro rfl; rw [h] at hi; exact nomatch hi)]
  exact hi

theorem not_code_of_struct (h : r.Has (.struct k)) : ¬ r.Has (.code k) := by
  rintro ⟨within, outer, names, hw⟩
  obtain ⟨_, _, hn⟩ := h
  rw [hn] at hw
  exact nomatch hw

theorem Fits.mono (hs : r.Fits s role) (h : r.Sub r') : r'.Fits s role := by
  cases hs with
  | code values owner outer bound =>
    exact .code (fun b hb => h.only (values b hb)) (fun k hk => h.has _ (owner k hk))
      (fun p hp => h.has _ (outer p hp)) bound
  | struct values members unmarked above =>
    exact .struct (fun b hb => h.only (values b hb)) members unmarked
      fun p hp => h.has _ (above p hp)

theorem Fits.values (hs : r.Fits s role) : ∀ b ∈ s.vars, b.2.Only r.Has := by
  cases hs with
  | code values _ _ _ => exact values
  | struct values _ _ _ => exact values

theorem Fits.set_values (hs : r.Fits s role) (hv : v.Only r.Has) :
    ∀ b ∈ s.vars.set x v, b.2.Only r.Has := by
  intro b hb
  rcases Bindings.mem_set hb with hb | hb
  · exact hs.values b hb
  · exact hb ▸ hv

theorem Fits.has_parent (hs : r.Fits s role) {p : Nat} (hp : s.parent = some p) :
    ∃ role', r p = some role' := by
  cases hs with
  | code _ _ outer _ =>
    obtain ⟨_, _, _, h⟩ := outer p hp
    exact ⟨_, h⟩
  | struct _ _ _ above =>
    obtain ⟨_, _, h⟩ := above p hp
    exact ⟨_, h⟩

namespace Holds

theorem empty (f : Forest Value Nat) : Region.empty.Holds f := nofun

theorem lt (hr : r.Holds f) (hk : r k = some role) : k < f.size := by
  obtain ⟨s, hs, -⟩ := hr k role hk
  exact Forest.lt_size hs

theorem none_of_size_le (hr : r.Holds f) (h : f.size ≤ k) : r k = none := by
  cases hk : r k with
  | none => rfl
  | some role => exact absurd (hr.lt hk) (by omega)

theorem parent_lt (hr : r.Holds f) (hk : r k = some role) {p : Nat} (hp : f.parent? k = some p) :
    p < k := by
  obtain ⟨s, hs, hlt, -⟩ := hr k role hk
  rw [Forest.parent?, hs] at hp
  exact hlt p hp

theorem code_parent (hr : r.Holds f) (k p : Nat) (hk : r.Has (.code k))
    (hp : f.parent? k = some p) : r.Has (.code p) := by
  obtain ⟨within, _, _, hk⟩ := hk
  obtain ⟨s, hs, -, hfit⟩ := hr k _ hk
  rw [Forest.parent?, hs] at hp
  cases hfit with
  | code _ _ outer _ => exact outer p hp

theorem struct_parent (hr : r.Holds f) (k p : Nat) (hk : r.Has (.struct k))
    (hp : f.parent? k = some p) : r.Has (.struct p) := by
  obtain ⟨_, names, hk⟩ := hk
  obtain ⟨s, hs, -, hfit⟩ := hr k _ hk
  rw [Forest.parent?, hs] at hp
  cases hfit with
  | struct _ _ _ above => exact above p hp

theorem code_home (hr : r.Holds f) (hk : r.Has (.code k)) (x : String) :
    r.Has (.code (f.home k x)) :=
  Forest.home_of_parents (P := fun k => r.Has (.code k)) hr.code_parent x k hk

theorem struct_home (hr : r.Holds f) (hk : r.Has (.struct k)) (x : String) :
    r.Has (.struct (f.home k x)) :=
  Forest.home_of_parents (P := fun k => r.Has (.struct k)) hr.struct_parent x k hk

theorem code_root (hr : r.Holds f) (hk : r.Has (.code k)) : r.Has (.code (f.root k)) :=
  Forest.root_of_parents (P := fun k => r.Has (.code k)) hr.code_parent k hk

/-- Where code assigns a name, either it is bound or there is no parent. -/
theorem code_has_home_or_root (hr : r.Holds f) (hk : r.Has (.code k)) (x : String) :
    (f.vars (f.home k x)).has x = true ∨ f.parent? (f.home k x) = none :=
  Forest.has_home_or_root (P := fun k => r.Has (.code k)) hr.code_parent
    (fun _ _ ⟨_, _, _, hk⟩ hp => hr.parent_lt hk hp) x k hk

theorem only_of_mem (hr : r.Holds f) (hk : r k = some role) {b : String × Value}
    (hb : b ∈ f.vars k) : b.2.Only r.Has := by
  obtain ⟨s, hs, -, hfit⟩ := hr k _ hk
  rw [Forest.vars, hs] at hb
  exact hfit.values b hb

/-- What code sees leads to nothing outside of the region. -/
theorem code_get? (hr : r.Holds f) (hk : r.Has (.code k)) (hv : f.get? k x = some v) :
    v.Only r.Has := by
  obtain ⟨_, _, _, hw⟩ := hr.code_home hk x
  obtain ⟨b, hb, rfl⟩ := Bindings.mem_of_get? hv
  exact hr.only_of_mem hw hb

theorem struct_get? (hr : r.Holds f) (hk : r.Has (.struct k)) (hv : f.get? k x = some v) :
    v.Only r.Has := by
  obtain ⟨_, _, hn⟩ := hr.struct_home hk x
  obtain ⟨b, hb, rfl⟩ := Bindings.mem_of_get? hv
  exact hr.only_of_mem hn hb

theorem mark? (hr : r.Holds f) (hk : r.Within k own) : f.mark? k = own := by
  obtain ⟨_, _, hk⟩ := hk
  obtain ⟨s, hs, -, hfit⟩ := hr k _ hk
  rw [Forest.mark?, hs]
  cases hfit with
  | code _ _ _ _ => rfl

theorem within (hr : r.Holds f) (hk : r.Has (.code k)) : r.Within k (f.mark? k) := by
  obtain ⟨_, hk⟩ := hk
  rwa [hr.mark? hk]

theorem owner (hr : r.Holds f) (hk : r.Has (.code k)) {id : Nat} (hm : f.mark? k = some id) :
    r.Has (.struct id) := by
  obtain ⟨_, _, _, hk⟩ := hk
  obtain ⟨s, hs, -, hfit⟩ := hr k _ hk
  rw [Forest.mark?, hs] at hm
  cases hfit with
  | code _ owner _ _ => exact owner id hm

theorem struct_mark? (hr : r.Holds f) (hk : r.Has (.struct k)) : f.mark? k = none := by
  obtain ⟨_, _, hk⟩ := hk
  obtain ⟨s, hs, -, hfit⟩ := hr k _ hk
  rw [Forest.mark?, hs]
  cases hfit with
  | struct _ _ unmarked _ => exact unmarked

theorem has_vars (hr : r.Holds f) {names : List String} (hk : r.Members k names) (x : String) :
    (f.vars k).has x = true ↔ x ∈ names := by
  obtain ⟨_, hk⟩ := hk
  obtain ⟨s, hs, -, hfit⟩ := hr k _ hk
  rw [Forest.vars, hs]
  cases hfit with
  | struct _ members _ _ => exact members x

theorem root_parent? (hr : r.Holds f) (hk : r.Root k) : f.parent? k = none := by
  obtain ⟨_, _, hk⟩ := hk
  obtain ⟨s, hs, -, hfit⟩ := hr k _ hk
  rw [Forest.parent?, hs]
  show s.parent = none
  generalize (none : Option Nat) = parent at hfit ⊢
  cases hfit with
  | code _ _ _ _ => rfl

theorem of_changed (hr : r.Holds f) (hne : ∀ i ≠ k, g.scopes[i]? = f.scopes[i]?)
    (hk : ∀ role s, r k = some role → f.scopes[k]? = some s → r.Fits s role →
      ∃ t, g.scopes[k]? = some t ∧ t.parent = s.parent ∧ r.Fits t role) : r.Holds g := by
  intro i role hi
  obtain ⟨s, hs, hlt, hfit⟩ := hr i role hi
  by_cases hik : i = k
  · subst hik
    obtain ⟨t, ht, hparent, hfit⟩ := hk role s hi hs hfit
    exact ⟨t, ht, by rwa [hparent], hfit⟩
  · exact ⟨s, by rw [hne i hik, hs], hlt, hfit⟩

theorem bind_code (hr : r.Holds f) (hk : r.Has (.code k))
    (hx : (f.vars k).has x = true ∨ f.parent? k = none) (hv : v.Only r.Has) :
    r.Holds (f.bind k x v) := by
  refine hr.of_changed (fun i hi => Forest.scope_bind_ne hi) fun role s hrole hs hfit => ?_
  refine ⟨_, Forest.scope_bind_self hs, rfl, ?_⟩
  have hvalues := hfit.set_values (x := x) hv
  rw [Forest.vars, Forest.parent?, hs] at hx
  cases hfit with
  | code _ owner outer bound =>
    refine .code hvalues owner outer fun hparent y => ?_
    rw [Bindings.has_set_eq (hx.resolve_right hparent)]
    exact bound hparent y
  | struct _ _ _ _ => exact absurd hk (not_code_of_struct ⟨_, _, hrole⟩)

theorem bind_struct (hr : r.Holds f) {names : List String} (hk : r.Members k names)
    (hx : x ∈ names) (hv : v.Only r.Has) : r.Holds (f.bind k x v) := by
  obtain ⟨_, hk⟩ := hk
  refine hr.of_changed (fun i hi => Forest.scope_bind_ne hi) fun role s hrole hs hfit => ?_
  refine ⟨_, Forest.scope_bind_self hs, rfl, ?_⟩
  have hvalues := hfit.set_values (x := x) hv
  rw [hk] at hrole
  cases hrole
  cases hfit with
  | struct _ members unmarked above =>
    refine .struct hvalues (fun y => ?_) unmarked above
    rw [Bindings.has_set_eq ((members x).2 hx)]
    exact members y

end Holds

/-! ## Steps -/

/-- The forest `f` becomes `g`, and the region `r` grows to `r'` by the new scopes.  No scope loses
    a name, and those outside of the region are as they were. -/
structure Step (r : Region) (f : Forest Value Nat) (r' : Region) (g : Forest Value Nat) :
    Prop where
  sub : r.Sub r'
  size_le : f.size ≤ g.size
  others : ∀ k < f.size, r k = none → r' k = none ∧ g.scopes[k]? = f.scopes[k]?
  holds : r'.Holds g
  names : ∀ k x, (f.vars k).has x = true → (g.vars k).has x = true
  added : ∀ k, f.size ≤ k → k < g.size → ∃ role, r' k = some role

/-- So are the structs.  No new scope belongs to a new struct, and none is a root for code. -/
structure PlainStep (r : Region) (f : Forest Value Nat) (r' : Region) (g : Forest Value Nat) : Prop
    extends Step r f r' g where
  structs : ∀ k, r.Has (.struct k) → g.scopes[k]? = f.scopes[k]?
  closed : ∀ k id, f.size ≤ k → g.mark? k = some id → id < f.size
  roots : ∀ k, r'.Root k → k < f.size

theorem Step.refl (hr : r.Holds f) : Step r f r f :=
  ⟨.refl r, le_rfl, fun _ _ h => ⟨h, rfl⟩, hr, fun _ _ h => h, fun k hk hlt => by omega⟩

theorem Step.trans (h₁ : Step r f r' g) (h₂ : Step r' g r'' h) : Step r f r'' h where
  sub := h₁.sub.trans h₂.sub
  size_le := h₁.size_le.trans h₂.size_le
  others k hk hnone := by
    obtain ⟨hnone', hscope⟩ := h₁.others k hk hnone
    obtain ⟨hnone'', hscope'⟩ := h₂.others k (hk.trans_le h₁.size_le) hnone'
    exact ⟨hnone'', hscope'.trans hscope⟩
  holds := h₂.holds
  names k x hx := h₂.names k x (h₁.names k x hx)
  added k hk hlt := by
    by_cases hkg : k < g.size
    · obtain ⟨role, hrole⟩ := h₁.added k hk hkg
      exact ⟨role, h₂.sub k role hrole⟩
    · exact h₂.added k (by omega) hlt

theorem Root.lt (hk : r.Root k) (hr : r.Holds f) : k < f.size := by
  obtain ⟨_, _, hk⟩ := hk
  exact hr.lt hk

theorem PlainStep.refl (hr : r.Holds f) : PlainStep r f r f where
  toStep := .refl hr
  structs _ _ := rfl
  closed k id hk hm := by
    rw [Forest.mark?_of_size_le hk] at hm
    exact nomatch hm
  roots _ hk := hk.lt hr

/-- Names in the scopes that code runs in may have got other values. -/
structure Keeps (r : Region) (f g : Forest Value Nat) : Prop where
  size_eq : g.size = f.size
  mark : ∀ k, g.mark? k = f.mark? k
  parent : ∀ k, g.parent? k = f.parent? k
  names : ∀ k x, (f.vars k).has x = true → (g.vars k).has x = true
  others : ∀ k, ¬ r.Has (.code k) → g.scopes[k]? = f.scopes[k]?
  holds : r.Holds g

namespace Keeps

theorem refl (hr : r.Holds f) : r.Keeps f f :=
  ⟨rfl, fun _ => rfl, fun _ => rfl, fun _ _ h => h, fun _ _ => rfl, hr⟩

theorem trans (h₁ : r.Keeps f g) (h₂ : r.Keeps g h) : r.Keeps f h :=
  ⟨h₂.size_eq.trans h₁.size_eq, fun k => (h₂.mark k).trans (h₁.mark k),
    fun k => (h₂.parent k).trans (h₁.parent k), fun k x hx => h₂.names k x (h₁.names k x hx),
    fun k hk => (h₂.others k hk).trans (h₁.others k hk), h₂.holds⟩

theorem bind (hr : r.Holds f) (hk : r.Has (.code k))
    (hx : (f.vars k).has x = true ∨ f.parent? k = none) (hv : v.Only r.Has) :
    r.Keeps f (f.bind k x v) := by
  refine ⟨Forest.size_bind, fun i => Forest.mark?_bind, fun i => Forest.parent?_bind,
    fun i y hy => Forest.has_vars_bind hy, fun i hi => ?_, hr.bind_code hk hx hv⟩
  exact Forest.scope_bind_ne (by rintro rfl; exact hi hk)

theorem set (hr : r.Holds f) (hk : r.Has (.code k)) (hv : v.Only r.Has) :
    r.Keeps f (f.set k x v) :=
  bind hr (hr.code_home hk x) (hr.code_has_home_or_root hk x) hv

theorem bind_all (hk : r.Has (.code k)) : ∀ (bs : Bindings Value) (f : Forest Value Nat),
    (∀ b ∈ bs, b.2.Only r.Has) → r.Holds f → f.parent? k = none →
    r.Keeps f (bs.foldl (fun f (name, v) => f.bind k name v) f)
  | [], f, _, hr, _ => refl hr
  | b :: bs, f, hbs, hr, hp =>
    have hb : r.Keeps f (f.bind k b.1 b.2) := bind hr hk (.inr hp) (hbs b (by simp))
    hb.trans (bind_all hk bs _ (fun c hc => hbs c (by simp [hc])) hb.holds ((hb.parent k).trans hp))

theorem plainStep (h : r.Keeps f g) : PlainStep r f r g where
  sub := .refl r
  size_le := h.size_eq.ge
  others k _ hnone := by
    refine ⟨hnone, h.others k ?_⟩
    rintro ⟨_, _, _, hw⟩
    rw [hnone] at hw
    exact nomatch hw
  holds := h.holds
  names := h.names
  added k hk hlt := by
    rw [h.size_eq] at hlt
    omega
  structs k hk := h.others k (not_code_of_struct hk)
  closed k id hk hm := by
    rw [h.mark, Forest.mark?_of_size_le hk] at hm
    exact nomatch hm
  roots k hk := h.size_eq ▸ hk.lt h.holds

end Keeps

theorem fits_root (r : Region) : r.Fits ⟨[], none, none⟩ (.code none none []) :=
  .code nofun nofun nofun nofun

theorem Holds.add (hr : r.Holds f) (hs : r.Fits s role) :
    Step r f (r.put f.size role) (f.add s).2 := by
  have hsub : r.Sub (r.put f.size role) := sub_put (hr.none_of_size_le le_rfl)
  refine ⟨hsub, by rw [Forest.size_add]; omega, fun k hk hnone => ?_, fun k role' hk => ?_,
    fun k x hx => ?_, fun k hk hlt => ?_⟩
  · exact ⟨by rw [put_of_ne hk.ne]; exact hnone, Forest.scope_add_lt hk⟩
  · by_cases hkf : k = f.size
    · subst hkf
      rw [put_self] at hk
      cases hk
      refine ⟨s, Forest.scope_add_self f s, fun p hp => ?_, hs.mono hsub⟩
      obtain ⟨_, hrole⟩ := hs.has_parent hp
      exact hr.lt hrole
    · rw [put_of_ne hkf] at hk
      obtain ⟨t, ht, hlt, hfit⟩ := hr k role' hk
      exact ⟨t, by rw [Forest.scope_add_lt (hr.lt hk), ht], hlt, hfit.mono hsub⟩
  · by_cases hkf : k < f.size
    · rwa [Forest.vars, Forest.scope_add_lt hkf]
    · rw [Forest.vars, Array.getElem?_eq_none (Nat.not_lt.1 hkf)] at hx
      cases hx
  · rw [Forest.size_add] at hlt
    obtain rfl : k = f.size := by omega
    exact ⟨role, put_self⟩

/-- It belongs to no new struct, and is no root for code. -/
theorem Holds.add_plain (hr : r.Holds f) (hs : r.Fits s role)
    (hm : ∀ id, s.mark = some id → id < f.size)
    (hroot : ∀ within names, role ≠ .code within none names) :
    PlainStep r f (r.put f.size role) (f.add s).2 := by
  refine ⟨hr.add hs, fun k ⟨_, _, hk⟩ => Forest.scope_add_lt (hr.lt hk), fun k id hk hmark => ?_,
    fun k ⟨within, names, hk⟩ => ?_⟩
  · by_cases hkf : k = f.size
    · subst hkf
      rw [Forest.mark?, Forest.scope_add_self] at hmark
      exact hm id hmark
    · rw [Forest.mark?_of_size_le (by rw [Forest.size_add]; omega)] at hmark
      exact nomatch hmark
  · by_cases hkf : k = f.size
    · subst hkf
      rw [put_self] at hk
      exact absurd (Option.some.inj hk) (hroot within names)
    · rw [put_of_ne hkf] at hk
      exact hr.lt hk

theorem Holds.add_code (hr : r.Holds f) {p : Nat} {vars : Bindings Value}
    (hp : r.Within p own) (hvars : ∀ b ∈ vars, b.2.Only r.Has) :
    PlainStep r f (r.put f.size (.code own (some p) (vars.map (·.1))))
      (f.add ⟨vars, some p, own⟩).2 := by
  have howner : ∀ id, own = some id → r.Has (.struct id) := by
    rintro id rfl
    exact hr.owner hp.has (hr.mark? hp)
  have hfit : r.Fits ⟨vars, some p, own⟩ (.code own (some p) (vars.map (·.1))) := by
    refine .code hvars howner (fun q hq => ?_) fun _ _ => Bindings.has_iff
    cases hq
    exact hp.has
  refine hr.add_plain hfit (fun id hid => ?_) nofun
  obtain ⟨_, _, hid⟩ := howner id hid
  exact hr.lt hid

end Region

end ExprLang
