/-
  Values in the memory of the MaMa.

  A `View` says what a state of the machine stands for: the scopes of an evaluation, where in the
  heap their variables lie, and the words of the heap that will not change any more.  Words that
  are not settled belong to nobody yet, or to variables that wait for their values.

  * `Represents V v a`: the object at `a` represents the value `v`.  A function is represented by
    its code and by references to the variables that it captures, whether these have values yet
    or not;
  * `View.Good`: all variables that have values are represented;
  * `Extends`: a view may know more than another one; what is represented stays represented;
  * `merge`: what two evaluations have added to one view is put together, in whatever order the
    machine has carried them out.
-/
import ExprLang.Proofs.MaMaCode
import ExprLang.Proofs.MaMaEvaluation
import Mathlib.Data.Int.Order.Basic

namespace ExprLang.MaMa

/-- What a state of the machine stands for. -/
structure View where
  scopes : Scopes
  /-- The variables that are in memory, by their scopes. -/
  known : Nat → String → Prop
  /-- Where a variable lies. -/
  place : Nat → String → Int
  /-- The settled words of the heap. -/
  heap : Int → Option Int

namespace View

/-- The variable that `x` refers to is in memory. -/
def Knows (V : View) (id : Nat) (x : String) : Prop := V.known (V.scopes.home id x) x

/-- Where the variable lies that `x` refers to. -/
def address (V : View) (id : Nat) (x : String) : Int := V.place (V.scopes.home id x) x

/-- The view `W` knows what `V` knows, and perhaps more. -/
structure Extends (V W : View) : Prop where
  scopes : V.scopes.Grown W.scopes
  known : ∀ {k x}, V.known k x → W.known k x
  place : ∀ {k x}, V.known k x → W.place k x = V.place k x
  heap : ∀ {a w}, V.heap a = some w → W.heap a = some w

namespace Extends

variable {U V W : View} {id : Nat} {x : String}

theorem refl (V : View) : V.Extends V := ⟨.refl _, id, fun _ => rfl, id⟩

theorem trans (h : U.Extends V) (h' : V.Extends W) : U.Extends W :=
  ⟨h.scopes.trans h'.scopes, fun hk => h'.known (h.known hk),
    fun hk => (h'.place (h.known hk)).trans (h.place hk), fun ha => h'.heap (h.heap ha)⟩

theorem knows (h : V.Extends W) (hid : id < V.scopes.size) (hx : V.Knows id x) : W.Knows id x := by
  rw [Knows, h.scopes.home_eq x id hid]; exact h.known hx

theorem address (h : V.Extends W) (hid : id < V.scopes.size) (hx : V.Knows id x) :
    W.address id x = V.address id x := by
  rw [View.address, h.scopes.home_eq x id hid]; exact h.place hx

end Extends

end View

/-! ## Values -/

variable (P : List Instr) (order : CaptureOrder)

/-- Calling the code at `n` with the captured variables in the vector `g` calls the function with
these parameters and this body. -/
def IsFunction (V : View) (id : Nat) (params : List String) (body : Expr) (n : Nat) (g : Int) :
    Prop :=
  id < V.scopes.size ∧ Admissible body ∧
    ∃ captured scope l s t c,
      (codeBy order .reference (functionSlots captured params ++ scope) 0 body).Gives s c t ∧
      Placed P n (.label (.text l) :: (c ++ [.popenv])) ∧
      (∀ x, Free x body → x ∈ params ∨ x ∈ captured) ∧
      ∀ (i : Nat) x, captured[i]? = some x →
        V.Knows id x ∧ V.heap (g + 2 + i) = some (V.address id x)

/-- The object at an address represents a value. -/
def Represents (V : View) : Val → Int → Prop
  | .int n, a => V.heap (a + 1) = some n
  | .closure id params body, a => ∃ (n : Nat) (g : Int),
    V.heap (a + 1) = some n ∧ V.heap (a + 3) = some g ∧ IsFunction P order V id params body n g

/-- All known variables that have values are represented. -/
structure View.Good (V : View) : Prop where
  lt_size : ∀ {k x}, V.known k x → k < V.scopes.size
  cells : ∀ {k x v}, V.known k x → (V.scopes.vars k).get? x = some (some v) →
    Represents P order V v (V.place k x)

variable {P order} {U V W : View} {m m' : State} {v : Val} {a : Int}

theorem IsFunction.mono {id : Nat} {params : List String} {body : Expr} {n : Nat} {g : Int}
    (h : IsFunction P order V id params body n g) (hVW : V.Extends W) :
    IsFunction P order W id params body n g := by
  obtain ⟨hid, ha, captured, scope, l, s, t, c, hc, hp, hf, hw⟩ := h
  refine ⟨hid.trans_le hVW.scopes.size_le, ha, captured, scope, l, s, t, c, hc, hp, hf,
    fun i x hx => ?_⟩
  obtain ⟨hk, hh⟩ := hw i x hx
  exact ⟨hVW.knows hid hk, by rw [hVW.address hid hk]; exact hVW.heap hh⟩

/-- **What is represented stays represented.** -/
theorem Represents.mono (h : Represents P order V v a) (hVW : V.Extends W) :
    Represents P order W v a := by
  cases v with
  | int n => exact hVW.heap h
  | closure id params body =>
    obtain ⟨n, g, h₁, h₃, hf⟩ := h
    exact ⟨n, g, hVW.heap h₁, hVW.heap h₃, hf.mono hVW⟩

theorem View.Good.get? (h : V.Good P order) {id : Nat} {x : String} (hk : V.Knows id x)
    (hv : V.scopes.get? id x = some (some v)) : Represents P order V v (V.address id x) :=
  h.cells hk hv

/-! ## Runs -/

/-- The heap of a state holds the settled words, and they lie below its free part. -/
structure View.Agrees (V : View) (m : State) : Prop where
  word : ∀ {a w}, V.heap a = some w → m.heap a = w
  lt_fresh : ∀ {a w}, V.heap a = some w → a < m.fresh

variable (P order) in
/-- From the view `V` a run has come to the view `W` in the state `m`, and has settled no word
below `b`. -/
structure Advances (V : View) (b : Int) (W : View) (m : State) : Prop where
  extends_ : V.Extends W
  known : ∀ {k x}, W.known k x → V.known k x ∨ V.scopes.size ≤ k
  heap : ∀ a < b, W.heap a = V.heap a
  fresh : b ≤ m.fresh
  good : W.Good P order
  agrees : W.Agrees m

namespace Advances

variable {b b' : Int}

theorem refl (hg : V.Good P order) (ha : V.Agrees m) (hb : b ≤ m.fresh) :
    Advances P order V b V m :=
  ⟨.refl V, .inl, fun _ _ => rfl, hb, hg, ha⟩

theorem trans (h : Advances P order U b V m) (h' : Advances P order V b' W m') (hb : b ≤ b') :
    Advances P order U b W m' := by
  refine ⟨h.extends_.trans h'.extends_, fun hk => ?_, fun a ha => ?_, hb.trans h'.fresh, h'.good,
    h'.agrees⟩
  · rcases h'.known hk with hk | hk
    · exact h.known hk
    · exact .inr (h.extends_.scopes.size_le.trans hk)
  · rw [h'.heap a (ha.trans_le hb), h.heap a ha]

theorem weaken (h : Advances P order V b W m) (hb : b' ≤ b) : Advances P order V b' W m :=
  ⟨h.extends_, h.known, fun a ha => h.heap a (ha.trans_le hb), hb.trans h.fresh, h.good, h.agrees⟩

/-- Only the heap, its free part and what the view says about them matter. -/
theorem congr (h : Advances P order V b W m) (hh : m'.heap = m.heap) (hf : m'.fresh = m.fresh) :
    Advances P order V b W m' :=
  ⟨h.extends_, h.known, h.heap, hf ▸ h.fresh, h.good,
    ⟨fun ha => hh ▸ h.agrees.word ha, fun ha => hf ▸ h.agrees.lt_fresh ha⟩⟩

end Advances

/-! ## Settling words -/

def View.settle (V : View) (lo hi : Int) (heap : Int → Int) : View :=
  { V with heap := fun a => if lo ≤ a ∧ a < hi then some (heap a) else V.heap a }

theorem View.settle_heap {lo hi : Int} {heap : Int → Int} (hlo : lo ≤ a) (hhi : a < hi) :
    (V.settle lo hi heap).heap a = some (heap a) := if_pos ⟨hlo, hhi⟩

theorem View.settle_extends {lo hi : Int} (heap : Int → Int)
    (h : ∀ a, lo ≤ a → a < hi → V.heap a = none) : V.Extends (V.settle lo hi heap) := by
  refine ⟨.refl _, id, fun _ => rfl, fun {a w} ha => ?_⟩
  by_cases hr : lo ≤ a ∧ a < hi
  · rw [h a hr.1 hr.2] at ha; cases ha
  · show ite _ _ _ = _
    rw [if_neg hr]; exact ha

theorem View.Good.of_heap (hg : V.Good P order) (hVW : V.Extends W) (hs : W.scopes = V.scopes)
    (hk : W.known = V.known) : W.Good P order := by
  refine ⟨fun h => hs ▸ hg.lt_size (hk ▸ h), fun h hv => ?_⟩
  rw [hk] at h
  rw [hs] at hv
  rw [hVW.place h]
  exact (hg.cells h hv).mono hVW

/-- New objects are settled at once. -/
theorem Advances.allocate (hg : V.Good P order) (ha : V.Agrees m) (hf : m.fresh ≤ m'.fresh)
    (hh : ∀ a < m.fresh, m'.heap a = m.heap a) :
    Advances P order V m.fresh (V.settle m.fresh m'.fresh m'.heap) m' := by
  have hnone : ∀ a, m.fresh ≤ a → V.heap a = none := by
    intro a hle
    cases hw : V.heap a with
    | none => rfl
    | some w => exact absurd (ha.lt_fresh hw) (not_lt.2 hle)
  have hext : V.Extends (V.settle m.fresh m'.fresh m'.heap) :=
    View.settle_extends m'.heap fun a hle _ => hnone a hle
  refine ⟨hext, .inl, fun a hlt => ?_, hf, hg.of_heap hext rfl rfl, ⟨fun {a w} h => ?_,
    fun {a w} h => ?_⟩⟩
  · exact if_neg fun hr => absurd hlt (not_lt.2 hr.1)
  · by_cases hr : m.fresh ≤ a ∧ a < m'.fresh
    · rw [View.settle_heap hr.1 hr.2] at h; exact Option.some.inj h
    · have hw : V.heap a = some w := by rw [← h]; exact (if_neg hr).symm
      rw [hh a (ha.lt_fresh hw)]; exact ha.word hw
  · by_cases hr : m.fresh ≤ a ∧ a < m'.fresh
    · exact hr.2
    · have hw : V.heap a = some w := by rw [← h]; exact (if_neg hr).symm
      exact (ha.lt_fresh hw).trans_le hf

/-! ## New scopes -/

theorem View.Good.of_kept {f : Scopes} (hg : V.Good P order) (hf : V.scopes.Kept f) :
    View.Good P order { V with scopes := f } := by
  have hext : V.Extends { V with scopes := f } := ⟨hf.grown, id, fun _ => rfl, id⟩
  refine ⟨fun h => (hg.lt_size h).trans_le hf.size_le, fun {k x v} h hv => ?_⟩
  have hv' : (V.scopes.vars k).get? x = some (some v) := by
    rw [← hf.vars (hg.lt_size h)]; exact hv
  exact (hg.cells h hv').mono hext

/-- Scopes that another evaluation has added change nothing. -/
theorem Advances.rescope {f : Scopes} (hg : V.Good P order) (ha : V.Agrees m)
    (hf : V.scopes.Kept f) : Advances P order V m.fresh { V with scopes := f } m :=
  ⟨⟨hf.grown, id, fun _ => rfl, id⟩, .inl, fun _ _ => rfl, le_rfl, hg.of_kept hf,
    ⟨ha.word, ha.lt_fresh⟩⟩

/-- Words that another evaluation has settled change nothing. -/
theorem Advances.reheap {f : Scopes} {b : Int} (hg : V.Good P order)
    (h : Advances P order { V with scopes := f } b W m) :
    Advances P order V b { V with heap := W.heap } m := by
  have hext : V.Extends { V with heap := W.heap } := ⟨.refl _, id, fun _ => rfl, h.extends_.heap⟩
  exact ⟨hext, .inl, h.heap, h.fresh, hg.of_heap hext rfl rfl, ⟨h.agrees.word, h.agrees.lt_fresh⟩⟩

/-- The view after the scopes became `f`, with a new one whose variables lie at `place`. -/
def View.enter (V : View) (f : Scopes) (names : List String) (place : String → Int) : View where
  scopes := f
  known k x := V.known k x ∨ k = V.scopes.size ∧ x ∈ names
  place k x := if k = V.scopes.size then place x else V.place k x
  heap := V.heap

theorem View.enter_place {f : Scopes} {names : List String} {place : String → Int} (x : String) :
    (V.enter f names place).place V.scopes.size x = place x := if_pos rfl

theorem Advances.enter {f : Scopes} {names : List String} {place : String → Int}
    (hg : V.Good P order) (ha : V.Agrees m) (hf : V.scopes.Kept f)
    (hlt : V.scopes.size < f.size)
    (hv : ∀ x ∈ names, ∀ v, (f.vars V.scopes.size).get? x = some (some v) →
      Represents P order V v (place x)) :
    Advances P order V m.fresh (V.enter f names place) m := by
  have hplace : ∀ {k x}, V.known k x → (V.enter f names place).place k x = V.place k x :=
    fun hk => if_neg (hg.lt_size hk).ne
  have hext : V.Extends (V.enter f names place) := ⟨hf.grown, .inl, hplace, id⟩
  refine ⟨hext, ?_, fun _ _ => rfl, le_rfl, ⟨?_, ?_⟩, ⟨ha.word, ha.lt_fresh⟩⟩
  · rintro k x (hk | ⟨rfl, -⟩)
    · exact .inl hk
    · exact .inr le_rfl
  · rintro k x (hk | ⟨rfl, -⟩)
    · exact (hg.lt_size hk).trans_le hf.size_le
    · exact hlt
  · rintro k x v (hk | ⟨rfl, hx⟩) hval
    · rw [hplace hk]
      refine (hg.cells hk ?_).mono hext
      rw [← hf.vars (hg.lt_size hk)]; exact hval
    · rw [View.enter_place]
      exact (hv x hx v hval).mono hext

/-! ## Two evaluations -/

/-- What `V` knows, and what `W` knows about later scopes. -/
def View.merge (V W : View) : View where
  scopes := W.scopes
  known k x := V.known k x ∨ W.known k x
  place k x := if k < V.scopes.size then V.place k x else W.place k x
  heap := V.heap

/-- **Two evaluations can be carried out in either order.**  Of two evaluations that follow each
other from `U`, the machine has carried out the second one first, and has come to `W` with it. -/
theorem Advances.merge {b : Int} (hUV : U.scopes.Kept V.scopes)
    (hVW : V.scopes.Kept W.scopes) (hW : Advances P order { U with scopes := V.scopes } b W m)
    (hV : Advances P order { U with heap := W.heap } m.fresh V m') :
    Advances P order U b (V.merge W) m' ∧ V.Extends (V.merge W) ∧ W.Extends (V.merge W) := by
  have hV' : V.Extends (V.merge W) :=
    ⟨hVW.grown, .inl, fun hk => if_pos (hV.good.lt_size hk), id⟩
  have hW' : W.Extends (V.merge W) := by
    refine ⟨.refl _, .inr, fun {k x} hk => ?_, hV.extends_.heap⟩
    show ite _ _ _ = _
    split
    · rename_i hlt
      -- The second evaluation starts behind the scopes of the first one.
      have hkU : U.known k x := (hW.known hk).resolve_right (not_le.2 hlt)
      exact (hV.extends_.place hkU).trans (hW.extends_.place hkU).symm
    · rfl
  refine ⟨⟨⟨hUV.grown.trans hVW.grown, fun hk => .inl (hV.extends_.known hk), fun hk => ?_,
    fun ha => hV.extends_.heap (hW.extends_.heap ha)⟩, ?_, fun a ha => ?_,
    hW.fresh.trans hV.fresh, ⟨?_, ?_⟩, ⟨hV.agrees.word, hV.agrees.lt_fresh⟩⟩, hV', hW'⟩
  · exact (hV'.place (hV.extends_.known hk)).trans (hV.extends_.place hk)
  · rintro k x (hk | hk)
    · exact hV.known hk
    · exact (hW.known hk).imp id hUV.size_le.trans
  · exact (hV.heap a (ha.trans_le hW.fresh)).trans (hW.heap a ha)
  · rintro k x (hk | hk)
    · exact (hV.good.lt_size hk).trans_le hVW.size_le
    · exact hW.good.lt_size hk
  · rintro k x v (hk | hk) hv
    · rw [hV'.place hk]
      refine (hV.good.cells hk ?_).mono hV'
      rw [← hVW.vars (hV.good.lt_size hk)]; exact hv
    · rw [hW'.place hk]
      exact (hW.good.cells hk hv).mono hW'

/-! ## Giving a variable its value -/

section copy
variable {src dst : Int}

theorem copy_heap_other (h : a ≤ dst ∨ dst + 4 ≤ a) : (m.copy src dst).heap a = m.heap a := by
  simp only [State.copy_heap, copyWord]
  rw [Function.update_of_ne (by omega), Function.update_of_ne (by omega),
    Function.update_of_ne (by omega)]

theorem copy_heap_one : (m.copy src dst).heap (dst + 1) = m.heap (src + 1) := by
  simp only [State.copy_heap, copyWord]
  rw [Function.update_of_ne (by omega), Function.update_of_ne (by omega), Function.update_self]

theorem copy_heap_three (h : src + 3 ≤ dst ∨ dst + 4 ≤ src + 3) :
    (m.copy src dst).heap (dst + 3) = m.heap (src + 3) := by
  simp only [State.copy_heap, copyWord]
  rw [Function.update_self, Function.update_of_ne (by omega), Function.update_of_ne (by omega)]

theorem Represents.copy (h : Represents P order V v src) (ha : V.Agrees m)
    (hnone : ∀ a, dst < a → a < dst + 4 → V.heap a = none) :
    Represents P order (V.settle (dst + 1) (dst + 4) (m.copy src dst).heap) v dst := by
  have hext : V.Extends (V.settle (dst + 1) (dst + 4) (m.copy src dst).heap) :=
    View.settle_extends _ fun a h₁ h₂ => hnone a (by omega) h₂
  have hone : ∀ {w}, V.heap (src + 1) = some w →
      (V.settle (dst + 1) (dst + 4) (m.copy src dst).heap).heap (dst + 1) = some w := by
    intro w hw
    rw [View.settle_heap (by omega) (by omega), copy_heap_one, ha.word hw]
  cases v with
  | int n => exact hone h
  | closure id params body =>
    obtain ⟨n, g, h₁, h₃, hf⟩ := h
    have hout : src + 3 ≤ dst ∨ dst + 4 ≤ src + 3 := by
      by_contra hc
      rw [hnone (src + 3) (by omega) (by omega)] at h₃
      cases h₃
    refine ⟨n, g, hone h₁, ?_, hf.mono hext⟩
    rw [View.settle_heap (by omega) (by omega), copy_heap_three hout, ha.word h₃]

/-- The view after a variable got its value, with the words of `heap` where it lies. -/
def View.assign (V : View) (id : Nat) (x : String) (v : Val) (heap : Int → Int) : View :=
  { V.settle (V.place id x + 1) (V.place id x + 4) heap with
    scopes := V.scopes.set id x (some v) }

/-- A variable that is not settled gets the value that is represented at `src`. -/
theorem Advances.assign {b : Int} {id : Nat} {x : String} (hg : V.Good P order) (ha : V.Agrees m)
    (hv : Represents P order V v src) (hk : V.known id x)
    (hx : (V.scopes.vars id).has x = true) (hdst : V.place id x = dst)
    (hnone : ∀ a, dst < a → a < dst + 4 → V.heap a = none) (hb : b ≤ dst)
    (hfresh : dst + 4 ≤ m.fresh) :
    Advances P order V b (V.assign id x v (m.copy src dst).heap) (m.copy src dst) := by
  subst hdst
  have hid := hg.lt_size hk
  have hkept : V.scopes.KeptBut id (V.scopes.set id x (some v)) := Forest.set_keptBut hid hx
  have hset : V.Extends (V.settle (V.place id x + 1) (V.place id x + 4) _) :=
    View.settle_extends (m.copy src (V.place id x)).heap fun a h₁ h₂ => hnone a (by omega) h₂
  have hext : V.Extends (V.assign id x v (m.copy src (V.place id x)).heap) :=
    hset.trans ⟨hkept.toGrown, fun h => h, fun _ => rfl, fun h => h⟩
  have hheap : ∀ {a w}, (V.assign id x v (m.copy src (V.place id x)).heap).heap a = some w →
      (a < V.place id x + 4 ∧ (m.copy src (V.place id x)).heap a = w) ∨
        (a ≤ V.place id x ∨ V.place id x + 4 ≤ a) ∧ V.heap a = some w := by
    intro a w hw
    by_cases hr : V.place id x + 1 ≤ a ∧ a < V.place id x + 4
    · have hw' := (View.settle_heap (V := V) hr.1 hr.2).symm.trans hw
      exact .inl ⟨hr.2, Option.some.inj hw'⟩
    · exact .inr ⟨by omega, (if_neg hr).symm.trans hw⟩
  refine ⟨hext, .inl, fun a hlt => if_neg (by omega), ?_, ⟨?_, ?_⟩, ⟨?_, ?_⟩⟩
  · show b ≤ m.fresh; omega
  · exact fun h => (hg.lt_size h).trans_le hkept.size_le
  · intro k y w hky hw
    have hw' : ((V.scopes.set id x (some v)).vars k).get? y = some (some w) := hw
    rw [Forest.set_eq_bind hx] at hw'
    by_cases hkid : k = id
    · subst hkid
      rw [Forest.vars_bind_self hid, Bindings.get?_set] at hw'
      split at hw'
      · rename_i hy
        subst hy
        cases hw'
        exact (hv.copy ha hnone).mono ⟨hkept.toGrown, fun h => h, fun _ => rfl, fun h => h⟩
      · exact (hg.cells hky hw').mono hext
    · rw [Forest.vars_bind_ne hkid] at hw'
      exact (hg.cells hky hw').mono hext
  · intro a w hw
    rcases hheap hw with ⟨-, h⟩ | ⟨h, hw⟩
    · exact h
    · rw [copy_heap_other h]; exact ha.word hw
  · intro a w hw
    rcases hheap hw with ⟨h, -⟩ | ⟨-, hw⟩
    · exact h.trans_le hfresh
    · exact ha.lt_fresh hw

end copy

end ExprLang.MaMa
