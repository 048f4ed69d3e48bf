/-
  Variables while MaMa code runs.

  At compile time every variable has a slot, relative to the level of the stack or in the vector of
  the captured variables; while the code runs, the slot holds a reference to where the variable lies
  (`Sees`).  `Ready` is what code needs to run, and `Leaves` is what it does.  The views inside a
  `local` and inside a call are again ones in which the code there can run.
-/
import ExprLang.Proofs.MaMaMemory

namespace ExprLang.MaMa

/-! ## Slots -/

/-- The last position of a name. -/
def lastIndex? (y : String) : List String → Option Nat
  | [] => none
  | x :: xs => ((lastIndex? y xs).map (· + 1)).or (if x = y then some 0 else none)

theorem lastIndex?_eq_none {y : String} : ∀ {xs : List String}, lastIndex? y xs = none ↔ y ∉ xs
  | [] => by simp [lastIndex?]
  | x :: xs => by
    have ih : lastIndex? y xs = none ↔ y ∉ xs := lastIndex?_eq_none
    by_cases h : x = y
    · simp [lastIndex?, h]
    · simp [lastIndex?, h, ih, Ne.symm h]

theorem lastIndex?_eq_some {y : String} : ∀ {xs : List String} {i : Nat}, xs.Nodup →
    xs[i]? = some y → lastIndex? y xs = some i
  | [], _, _, h => by simp at h
  | x :: xs, 0, hn, h => by
    obtain rfl : x = y := by simpa using h
    rw [lastIndex?, lastIndex?_eq_none.2 (List.nodup_cons.1 hn).1]
    simp
  | x :: xs, i + 1, hn, h => by
    rw [lastIndex?, lastIndex?_eq_some (List.nodup_cons.1 hn).2 (by simpa using h)]
    rfl

theorem getElem?_of_lastIndex? {y : String} : ∀ {xs : List String} {j : Nat},
    lastIndex? y xs = some j → xs[j]? = some y
  | [], _, h => by simp [lastIndex?] at h
  | x :: xs, j, h => by
    cases hl : lastIndex? y xs with
    | some i =>
      rw [lastIndex?, hl] at h
      obtain rfl : i + 1 = j := by simpa using h
      simpa using getElem?_of_lastIndex? hl
    | none =>
      rw [lastIndex?, hl] at h
      by_cases hx : x = y
      · obtain rfl : 0 = j := by simpa [hx] using h
        simp [hx]
      · simp [hx] at h

theorem lookup_slotsFrom (s : Storage) (step : Int) (y : String) :
    ∀ (xs : List String) (a : Int) (slots : Slots),
      (slotsFrom s a step xs slots).lookup y =
        ((lastIndex? y xs).map fun j => ⟨s, a + step * j, none⟩).or (slots.lookup y)
  | [], _, _ => rfl
  | x :: xs, a, slots => by
    rw [slotsFrom, lookup_slotsFrom s step y xs, Slots.lookup_put, lastIndex?]
    cases hl : lastIndex? y xs with
    | some j =>
      have : a + step + step * j = a + step * (j + 1 : Nat) := by
        rw [Int.natCast_add, Int.mul_add, Int.natCast_one, Int.mul_one]; omega
      simp [this]
    | none => by_cases hx : x = y <;> simp [hx, Ne.symm]

/-- The last value given to a name is the one that stays. -/
theorem get?_bindAll {id : Nat} (y : String) : ∀ {f : Scopes} {xs : List String} {vs : List Val},
    id < f.size → (∀ x ∈ xs, (f.vars id).has x = true) → vs.length = xs.length →
    ((bindAll f id xs vs).vars id).get? y =
      match lastIndex? y xs with
      | some j => vs[j]?.map some
      | none => (f.vars id).get? y
  | f, [], vs, _, _, _ => by rw [bindAll]; rfl; simp
  | f, x :: xs, [], _, _, h => by simp at h
  | f, x :: xs, v :: vs, hid, hx, hlen => by
    have hxid := hx x (by simp)
    have hb : f.KeptBut id (f.set id x (some v)) := Forest.set_keptBut hid hxid
    have hx' : ∀ z ∈ xs, ((f.set id x (some v)).vars id).has z = true := by
      intro z hz
      rw [hb.has id hid]
      exact hx z (by simp [hz])
    rw [bindAll, get?_bindAll y (hid.trans_le hb.size_le) hx' (by simpa using hlen), lastIndex?]
    cases hl : lastIndex? y xs with
    | some j => rfl
    | none =>
      dsimp only
      rw [Forest.set_eq_bind hxid, Forest.vars_bind_self hid, Bindings.get?_set]
      by_cases hxy : x = y
      · simp [hxy]
      · simp [hxy, Ne.symm hxy]

/-! ## Variables while code runs -/

/-- The slot of a variable at level `kp` holds a reference to where the variable lies. -/
def Sees (V : View) (id : Nat) (scope : Slots) (kp : Int) (m : State) (x : String) : Prop :=
  V.Knows id x ∧ ∃ slot, scope.lookup x = some slot ∧
    (slot.storage = .local_ ∧
        (∃ i : Nat, kp - slot.address = i ∧ m.stack[i]? = some (V.address id x)) ∨
      slot.storage = .global ∧ V.heap (m.gp + 2 + slot.address) = some (V.address id x))

variable (P : List Instr) (order : CaptureOrder)

/-- Code for expressions that need the variables `X` can run. -/
structure Ready (V : View) (m : State) (id : Nat) (scope : Slots) (kp : Int) (X : String → Prop) :
    Prop where
  good : V.Good P order
  agrees : V.Agrees m
  lt_size : id < V.scopes.size
  sees : ∀ x, X x → Sees V id scope kp m x

/-- A word stands for a value in the way that is wanted. -/
def Stands (W : View) (v : Val) (w : Int) : Want → Prop
  | .basic => v = .int w
  | .reference => Represents P order W v w

/-- Between `m` and `m'` a value was pushed. -/
structure Leaves (want : Want) (V : View) (m : State) (v : Val) (W : View) (m' : State) : Prop
    extends Advances P order V m.fresh W m' where
  stack : ∃ w, m'.stack = w :: m.stack ∧ Stands P order W v w want
  fp : m'.fp = m.fp
  gp : m'.gp = m.gp

variable {P order} {V W : View} {m m' m₁ m₂ : State} {id : Nat} {scope : Slots} {kp : Int}
  {X Y : String → Prop} {v : Val} {want : Want} {b : Int}

theorem Ready.of_imp (h : Ready P order V m id scope kp X) (hY : ∀ x, Y x → X x) :
    Ready P order V m id scope kp Y := ⟨h.good, h.agrees, h.lt_size, fun x hx => h.sees x (hY x hx)⟩

theorem Ready.next (h : Ready P order V m id scope kp X) : Ready P order V m.next id scope kp X :=
  ⟨h.good, ⟨h.agrees.word, h.agrees.lt_fresh⟩, h.lt_size, h.sees⟩

/-- Code can go on when words have been pushed. -/
theorem Ready.push (h : Ready P order V m id scope kp X) (ha : Advances P order V b W m')
    {ws : List Int} (hs : m'.stack = ws ++ m.stack) (hgp : m'.gp = m.gp) {k : Int}
    (hk : k = kp + ws.length) : Ready P order W m' id scope k X := by
  refine ⟨ha.good, ha.agrees, h.lt_size.trans_le ha.extends_.scopes.size_le, fun x hx => ?_⟩
  obtain ⟨hkn, slot, hsl, hslot⟩ := h.sees x hx
  have haddr := ha.extends_.address h.lt_size hkn
  refine ⟨ha.extends_.knows h.lt_size hkn, slot, hsl, hslot.imp ?_ ?_⟩
  · rintro ⟨hst, i, hi, hw⟩
    refine ⟨hst, ws.length + i, by push_cast; omega, ?_⟩
    rw [hs, haddr, List.getElem?_append_right (by omega), Nat.add_sub_cancel_left]
    exact hw
  · rintro ⟨hst, hw⟩
    rw [hgp, haddr]
    exact ⟨hst, ha.extends_.heap hw⟩

/-- Code can go on when the stack is what it was. -/
theorem Ready.stay (h : Ready P order V m id scope kp X) (ha : Advances P order V b W m')
    (hs : m'.stack = m.stack) (hgp : m'.gp = m.gp) : Ready P order W m' id scope kp X :=
  h.push ha (show m'.stack = [] ++ m.stack from hs) hgp (by simp)

theorem Leaves.ready (h : Leaves P order want V m v W m') (hr : Ready P order V m id scope kp X) :
    Ready P order W m' id scope (kp + 1) X := by
  obtain ⟨w, hw, -⟩ := h.stack
  exact hr.push h.toAdvances (show m'.stack = [w] ++ m.stack from hw) h.gp rfl

theorem Leaves.stack_int {n : Int} (h : Leaves P order .basic V m (.int n) W m') :
    m'.stack = n :: m.stack := by
  obtain ⟨w, hw, hn⟩ := h.stack
  cases hn; exact hw

theorem Leaves.replace {v' : Int} (h : Leaves P order .basic V m v W m') (n : Nat) :
    Leaves P order .basic V m (.int v') W ((m'.on (v' :: m.stack)).jumpTo n) :=
  ⟨h.toAdvances.congr rfl rfl, ⟨v', rfl, rfl⟩, h.fp, h.gp⟩

/-- Two pushed words are replaced by one. -/
theorem Leaves.combine {v' : Val} {W' : View} (h : Leaves P order .basic V m v W m₁)
    (h' : Leaves P order .basic W m₁ v' W' m₂) (r : Int) (n : Nat) :
    Leaves P order .basic V m (.int r) W' ((m₂.on (r :: m.stack)).jumpTo n) :=
  ⟨(h.toAdvances.trans h'.toAdvances h.fresh).congr rfl rfl, ⟨r, rfl, rfl⟩, h'.fp.trans h.fp,
    h'.gp.trans h.gp⟩

theorem Leaves.jumpTo (h : Leaves P order want V m v W m') (n : Nat) :
    Leaves P order want V m v W (m'.jumpTo n) :=
  ⟨h.toAdvances.congr rfl rfl, h.stack, h.fp, h.gp⟩

theorem Leaves.after (ha : Advances P order V m.fresh W m₁) (hs : m₁.stack = m.stack)
    (hfp : m₁.fp = m.fp) (hgp : m₁.gp = m.gp) {W' : View} (h : Leaves P order want W m₁ v W' m₂) :
    Leaves P order want V m v W' m₂ :=
  ⟨ha.trans h.toAdvances ha.fresh, hs ▸ h.stack, h.fp.trans hfp, h.gp.trans hgp⟩

/-! ## Basic words and references -/

theorem Leaves.object {n : Nat} {st ws : List Int} (ha : Advances P order V m.fresh W m')
    (hst : m.stack = st) (hfp : m'.fp = m.fp) (hgp : m'.gp = m.gp)
    (hv : W.Extends (W.settle m'.fresh (m'.fresh + ws.length) (writeWords m'.heap m'.fresh ws)) →
      Represents P order (W.settle m'.fresh (m'.fresh + ws.length)
        (writeWords m'.heap m'.fresh ws)) v m'.fresh) :
    Leaves P order .reference V m v
      (W.settle m'.fresh (m'.fresh + ws.length) (writeWords m'.heap m'.fresh ws))
      (((m'.on st).object ws).jumpTo n) := by
  have hal : Advances P order W m'.fresh
      (W.settle m'.fresh (m'.fresh + ws.length) (writeWords m'.heap m'.fresh ws))
      (((m'.on st).object ws).jumpTo n) := by
    have hle : m'.fresh ≤ (((m'.on st).object ws).jumpTo n).fresh := by
      show m'.fresh ≤ m'.fresh + ws.length; omega
    exact Advances.allocate ha.good ha.agrees hle fun a hlt => writeWords_before hlt _ _
  refine ⟨ha.trans hal ha.fresh, ⟨m'.fresh, ?_, hv hal.extends_⟩, hfp, hgp⟩
  rw [hst]; rfl

theorem boxed_runs {n : Int} (h : Leaves P order .basic V m (.int n) W m₁)
    (hp : Placed P m₁.pc (boxed want)) : ∃ W' m', Runs P m₁ m' ∧
      m'.pc = m₁.pc + (boxed want).length ∧ W'.scopes = W.scopes ∧
      Leaves P order want V m (.int n) W' m' := by
  cases want with
  | basic => exact ⟨W, m₁, .refl _, rfl, rfl, h⟩
  | reference =>
    refine ⟨_, _, Runs.mkbasic hp h.stack_int (.refl _), rfl, ?_,
      Leaves.object h.toAdvances rfl h.fp h.gp fun _ => ?_⟩
    · rfl
    · show (W.settle _ _ _).heap _ = _
      rw [View.settle_heap (by omega) (by simp)]
      exact congrArg some (writeWords_get m₁.heap m₁.fresh [tagB, n] 1 rfl)

theorem unboxed_runs (h : Leaves P order .reference V m v W m₁)
    (hint : want = .basic → ∃ n, v = .int n) (hp : Placed P m₁.pc (unboxed want)) :
    ∃ m', Runs P m₁ m' ∧ m'.pc = m₁.pc + (unboxed want).length ∧
      Leaves P order want V m v W m' := by
  cases want with
  | reference => exact ⟨m₁, .refl _, rfl, h⟩
  | basic =>
    obtain ⟨n, rfl⟩ := hint rfl
    obtain ⟨a, hs, hn⟩ := h.stack
    refine ⟨_, Runs.getbasic hp hs (.refl _), rfl, h.toAdvances.congr rfl rfl, ⟨n, ?_, rfl⟩, h.fp,
      h.gp⟩
    show m₁.heap (a + 1) :: m.stack = _
    rw [h.agrees.word hn]

/-! ## Variables -/

variable {s t : GenState} {c : List Instr} {x : String}

theorem variable_runs (h : (variable_ scope kp x).Gives s c t) (hx : Sees V id scope kp m x)
    (ha : V.Agrees m) (hp : Placed P m.pc c) :
    Runs P m ((m.push (V.address id x)).jumpTo (m.pc + c.length)) := by
  obtain ⟨-, slot, hsl, hc⟩ := variable_gives h
  obtain ⟨hk, slot', hsl', hslot⟩ := hx
  rw [hsl', Option.some_or] at hsl
  cases hsl
  rcases hc with ⟨hst, rfl⟩ | ⟨hst, rfl⟩ <;> rcases hslot with ⟨hst', hw⟩ | ⟨hst', hw⟩ <;>
    rw [hst] at hst' <;> cases hst'
  · obtain ⟨i, hi, hw⟩ := hw
    rw [hi] at hp
    exact Runs.pushloc hp hw (.refl _)
  · refine Runs.pushglob hp ?_
    rw [ha.word hw]
    exact .refl _

theorem variableCodes_runs : ∀ {xs : List String} {kp : Int} {c : List Instr} {m : State},
    (variableCodes scope kp xs).Gives s c t → Ready P order V m id scope kp (· ∈ xs) →
    Placed P m.pc c →
    Runs P m ((m.on ((xs.map (V.address id)).reverse ++ m.stack)).jumpTo (m.pc + c.length))
  | [], _, _, m, h, _, _ => by obtain ⟨rfl, -⟩ := Gen.gives_pure.1 h; exact .refl m
  | x :: xs, kp, c, m, h, hr, hp => by
    obtain ⟨cx, cs, hcx, hcs, rfl⟩ := variableCodes_gives h
    let m₁ := (m.push (V.address id x)).jumpTo (m.pc + cx.length)
    have hr₁ : Runs P m m₁ := variable_runs hcx (hr.sees x (by simp)) hr.agrees hp.left
    have hadv : Advances P order V m.fresh V m₁ :=
      Advances.refl hr.good ⟨hr.agrees.word, hr.agrees.lt_fresh⟩ le_rfl
    have hready : Ready P order V m₁ id scope (kp + 1) (· ∈ xs) :=
      (hr.of_imp fun y hy => List.mem_cons_of_mem x hy).push hadv
        (show m₁.stack = [V.address id x] ++ m.stack from rfl) rfl rfl
    refine hr₁.trans ?_
    have hrest := variableCodes_runs hcs hready (hp.behind rfl)
    have hpc : m₁.pc + cs.length = m.pc + (cx ++ cs).length := by simp [m₁]; omega
    have hst : (xs.map (V.address id)).reverse ++ m₁.stack =
        ((x :: xs).map (V.address id)).reverse ++ m.stack := by simp [m₁]
    rw [hpc, hst] at hrest
    exact hrest

/-! ## Variables without values -/

/-- References to `n` objects of four words from `a` on. -/
def blankRefs (a : Int) : Nat → List Int
  | 0 => []
  | n + 1 => a :: blankRefs (a + 4) n

theorem length_blankRefs : ∀ (a : Int) (n : Nat), (blankRefs a n).length = n
  | _, 0 => rfl
  | a, n + 1 => by rw [blankRefs, List.length_cons, length_blankRefs]

theorem getElem?_blankRefs : ∀ (a : Int) {n i : Nat}, i < n → (blankRefs a n)[i]? = some (a + 4 * i)
  | _, 0, _, h => absurd h (Nat.not_lt_zero _)
  | a, n + 1, 0, _ => by simp [blankRefs]
  | a, n + 1, i + 1, h => by
    rw [blankRefs, List.getElem?_cons_succ, getElem?_blankRefs (a + 4) (Nat.lt_of_succ_lt_succ h)]
    congr 1; push_cast; omega

/-- Making objects without contents changes the stack and the free part of the heap only. -/
theorem blanks_spec : ∀ (m : State) (n : Nat), (m.blanks n).pc = m.pc ∧
    (m.blanks n).stack = (blankRefs m.fresh n).reverse ++ m.stack ∧ (m.blanks n).fp = m.fp ∧
    (m.blanks n).gp = m.gp ∧ (m.blanks n).fresh = m.fresh + 4 * n ∧
    ∀ a < m.fresh, (m.blanks n).heap a = m.heap a
  | m, 0 => ⟨rfl, rfl, rfl, rfl, by simp [State.blanks], fun _ _ => rfl⟩
  | m, n + 1 => by
    obtain ⟨hpc, hst, hfp, hgp, hfr, hh⟩ := blanks_spec (m.object [tagF, 0, 0, 0]) n
    have hf : (m.object [tagF, 0, 0, 0]).fresh = m.fresh + 4 := rfl
    refine ⟨hpc, ?_, hfp, hgp, ?_, fun a ha => ?_⟩
    · rw [State.blanks, hst, hf, blankRefs]; simp
    · rw [State.blanks, hfr, hf]; push_cast; omega
    · rw [State.blanks, hh a (by omega)]; exact writeWords_before ha _ _

/-- The variables of some bindings lie from `q` on, without values, with references to them on top
of the stack. -/
structure Pending (V : View) (m : State) (id : Nat) (bs : List (Binding Expr)) (q : Int) :
    Prop where
  known : ∀ b ∈ bs, V.known id b.target.name
  has : ∀ b ∈ bs, (V.scopes.vars id).has b.target.name = true
  place : ∀ (i : Nat) b, bs[i]? = some b → V.place id b.target.name = q + 4 * i
  stack : ∀ i < bs.length, m.stack[bs.length - 1 - i]? = some (q + 4 * i)
  heap : ∀ a, q ≤ a → a < q + 4 * bs.length → V.heap a = none
  fresh : q + 4 * bs.length ≤ m.fresh

/-- The first of the variables gets its value. -/
theorem Pending.patch {p r : Pos} {a : Expr} {bs : List (Binding Expr)} {q : Int}
    (h : Pending V m id (⟨p, .var r x, a⟩ :: bs) q) (hg : V.Good P order)
    (hv : Leaves P order .reference V m v W m₁)
    (hp : Placed P m₁.pc (.patch (.int (bs.length + 1)) :: c)) (hb : b ≤ q) :
    ∃ W' m', Runs P m₁ m' ∧ m'.pc = m₁.pc + 1 ∧ W'.scopes = W.scopes.set id x (some v) ∧
      Advances P order V b W' m' ∧ m'.stack = m.stack ∧ m'.fp = m.fp ∧ m'.gp = m.gp ∧
      Pending W' m' id bs (q + 4) := by
  obtain ⟨w, hs, hw⟩ := hv.stack
  have hfresh := h.fresh
  simp only [List.length_cons, Int.natCast_add, Int.natCast_one] at hfresh
  have hfresh₁ := hv.fresh
  have hkn : V.known id x := h.known _ (List.mem_cons_self ..)
  have hid := hg.lt_size hkn
  have hq : W.place id x = q := by
    rw [hv.extends_.place hkn]
    exact (h.place 0 _ rfl).trans (by simp)
  have hnone : ∀ a, q ≤ a → a < q + 4 * (bs.length + 1) → W.heap a = none := by
    intro a h₁ h₂
    rw [hv.heap a (by omega)]
    exact h.heap a h₁ (by simpa using h₂)
  have hstack : (w :: m.stack)[bs.length + 1]? = some q := by
    have := h.stack 0 (by simp)
    simpa using this
  have hx : (W.scopes.vars id).has x = true := by
    rw [hv.extends_.scopes.has id hid]; exact h.has _ (List.mem_cons_self ..)
  have hadv := Advances.assign (m := m₁.on m.stack) hv.good ⟨hv.agrees.word, hv.agrees.lt_fresh⟩ hw
    (hv.extends_.known hkn) hx hq (fun a h₁ h₂ => hnone a (by omega) (by omega)) hb
    (show q + 4 ≤ m₁.fresh by omega)
  have hset : W.scopes.KeptBut id (W.scopes.set id x (some v)) :=
    Forest.set_keptBut (hid.trans_le hv.extends_.scopes.size_le) hx
  refine ⟨_, _, Runs.patch hp hs hstack (.refl _), rfl, rfl,
    ((hv.toAdvances.weaken (by omega)).trans hadv le_rfl).congr rfl rfl, rfl, hv.fp, hv.gp,
    ⟨fun b hb => ?_, fun b hb => ?_, fun i b hi => ?_, fun i hi => ?_, fun a h₁ h₂ => ?_, ?_⟩⟩
  · exact hv.extends_.known (h.known b (List.mem_cons_of_mem _ hb))
  · have hhas := h.has b (List.mem_cons_of_mem _ hb)
    rw [← hv.extends_.scopes.has id hid] at hhas
    exact (hset.has id (hid.trans_le hv.extends_.scopes.size_le) _).trans hhas
  · have hpl := h.place (i + 1) b (by simpa using hi)
    rw [← hv.extends_.place (h.known b (List.mem_cons_of_mem _ (List.mem_of_getElem? hi)))] at hpl
    exact hpl.trans (by push_cast; omega)
  · have hst := h.stack (i + 1) (by simpa using hi)
    rw [List.length_cons, show bs.length + 1 - 1 - (i + 1) = bs.length - 1 - i by omega] at hst
    exact hst.trans (congrArg some (by push_cast; omega))
  · exact (if_neg (by omega)).trans (hnone a (by omega) (by omega))
  · show q + 4 + 4 * (bs.length : Int) ≤ m₁.fresh; omega

/-! ## New scopes -/

theorem Sees.inner {id' : Nat} {scope' : Slots} (h : Sees V id scope kp m x)
    (hhome : V.scopes.home id' x = V.scopes.home id x) (hl : scope'.lookup x = scope.lookup x) :
    Sees V id' scope' kp m x := by
  obtain ⟨hk, slot, hsl, hslot⟩ := h
  have haddr : V.address id' x = V.address id x := by rw [View.address, hhome]; rfl
  refine ⟨?_, slot, hl.trans hsl, ?_⟩
  · rw [View.Knows, hhome]; exact hk
  · rw [haddr]; exact hslot

/-- The view inside a `local` whose variables lie from `q` on. -/
def View.enterLet (V : View) (id : Nat) (names : List String) (q : Int) : View :=
  V.enter (V.scopes.push id names none).2 names fun x => q + 4 * ((lastIndex? x names).getD 0 : Nat)

section letIn
variable {bs : List (Binding Expr)}

theorem getElem?_blanks {n i : Nat} (hi : i < n) :
    (m.blanks n).stack[n - 1 - i]? = some (m.fresh + 4 * i) := by
  obtain ⟨-, hst, -⟩ := blanks_spec m n
  have hi' : n - 1 - i < (blankRefs m.fresh n).length := by rw [length_blankRefs]; omega
  rw [hst, List.getElem?_append_left (by simpa using hi'), List.getElem?_reverse hi',
    length_blankRefs, show n - 1 - (n - 1 - i) = i by omega, getElem?_blankRefs m.fresh hi]

theorem enterLet_advances (bs : List (Binding Expr)) (hr : Ready P order V m id scope kp X) :
    Advances P order V m.fresh (V.enterLet id (boundNames bs) m.fresh)
      (m.blanks bs.length).next := by
  obtain ⟨-, -, -, -, hfr, hh⟩ := blanks_spec m bs.length
  have hle : m.fresh ≤ (m.blanks bs.length).next.fresh := by
    show m.fresh ≤ (m.blanks bs.length).fresh; omega
  have hV : Advances P order V m.fresh V (m.blanks bs.length).next :=
    .refl hr.good ⟨fun ha => (hh _ (hr.agrees.lt_fresh ha)).trans (hr.agrees.word ha),
      fun ha => (hr.agrees.lt_fresh ha).trans_le hle⟩ hle
  refine hV.trans (.enter hV.good hV.agrees (V.scopes.push_kept id _ none) (lt_size_push ..)
    fun x hx v h => ?_) hle
  rw [Forest.get?_vars_push, if_pos hx] at h
  cases h

theorem enterLet_ready (hr : Ready P order V m id scope kp X) :
    Ready P order (V.enterLet id (boundNames bs) m.fresh) (m.blanks bs.length).next
      V.scopes.size (letSlots kp bs scope) (kp + bs.length) (fun x => x ∈ boundNames bs ∨ X x) := by
  obtain ⟨-, hst, -, hgp, -⟩ := blanks_spec m bs.length
  have hadv := enterLet_advances bs hr
  have hlen : (boundNames bs).length = bs.length := List.length_map ..
  have hk : kp + bs.length = kp + ((blankRefs m.fresh bs.length).reverse.length : Int) := by
    rw [List.length_reverse, length_blankRefs]
  have hout := hr.push hadv hst hgp hk
  refine ⟨hadv.good, hadv.agrees, lt_size_push .., fun x hx => ?_⟩
  by_cases hmem : x ∈ boundNames bs
  · have hhome : (V.enterLet id (boundNames bs) m.fresh).scopes.home V.scopes.size x =
        V.scopes.size := Forest.home_push_of_mem _ _ _ _ hmem
    obtain ⟨j, hj⟩ : ∃ j, lastIndex? x (boundNames bs) = some j := by
      cases hl : lastIndex? x (boundNames bs) with
      | some j => exact ⟨j, rfl⟩
      | none => exact absurd hmem (lastIndex?_eq_none.1 hl)
    have hjn : j < bs.length := hlen ▸ (List.getElem?_eq_some_iff.1 (getElem?_of_lastIndex? hj)).1
    refine ⟨?_, ⟨.local_, kp + 1 + 1 * j, none⟩, ?_, .inl ⟨rfl, bs.length - 1 - j, ?_, ?_⟩⟩
    · rw [View.Knows, hhome]; exact .inr ⟨rfl, hmem⟩
    · rw [letSlots, List.lookup_append, lookup_slotsFrom, hj]; rfl
    · show kp + bs.length - (kp + 1 + 1 * (j : Int)) = _; omega
    · rw [View.address, hhome]
      refine (getElem?_blanks hjn).trans ?_
      rw [View.enterLet, View.enter_place, hj]; rfl
  · refine (hout.sees x (hx.resolve_left hmem)).inner ?_ ?_
    · refine (Forest.home_push_of_not_mem _ _ _ _ hr.lt_size hmem).trans ?_
      exact ((V.scopes.push_kept id _ none).grown.home_eq x id hr.lt_size).symm
    · rw [letSlots, List.lookup_append, lookup_slotsFrom, lastIndex?_eq_none.2 hmem]; rfl

theorem enterLet_pending (hn : (boundNames bs).Nodup) (hr : Ready P order V m id scope kp X) :
    Pending (V.enterLet id (boundNames bs) m.fresh) (m.blanks bs.length).next V.scopes.size bs
      m.fresh := by
  obtain ⟨-, -, -, -, hfr, -⟩ := blanks_spec m bs.length
  refine ⟨fun b hb => .inr ⟨rfl, List.mem_map_of_mem hb⟩,
    fun b hb => push_has _ _ (List.mem_map_of_mem hb), fun i b hi => ?_,
    fun i hi => getElem?_blanks hi, fun a h₁ _ => ?_, hfr.ge⟩
  · have hi' : (boundNames bs)[i]? = some b.target.name := by simp [hi]
    rw [View.enterLet, View.enter_place, lastIndex?_eq_some hn hi']; rfl
  · cases h : V.heap a with
    | none => exact h
    | some w => exact absurd (hr.agrees.lt_fresh h) (not_lt.2 h₁)

end letIn

/-- The view inside a call with the values `vs`, to which `ws` are references. -/
def View.enterCall (V : View) (id : Nat) (params : List String) (vs : List Val) (ws : List Int) :
    View :=
  V.enter (bindAll (V.scopes.push id params none).2 V.scopes.size params vs) params
    fun x => ws.getD ((lastIndex? x params).getD 0) 0

section call
variable {params : List String} {vs : List Val} {ws st : List Int}

theorem getElem?_of_forall₂ {α β : Type} {R : α → β → Prop} {v : α} : ∀ {vs : List α} {ws : List β}
    {j : Nat}, List.Forall₂ R vs ws → vs[j]? = some v → ∃ w, ws[j]? = some w ∧ R v w
  | [], _, _, _, h => by simp at h
  | _ :: _, w :: _, 0, .cons hr _, h => by
    obtain rfl := Option.some.inj h
    exact ⟨w, rfl, hr⟩
  | _ :: vs, _ :: _, j + 1, .cons _ hs, h => by
    have h' : vs[j]? = some v := by simpa using h
    simpa using getElem?_of_forall₂ hs h'

theorem enterCall_advances (hg : V.Good P order) (ha : V.Agrees m)
    (hvs : List.Forall₂ (Represents P order V) vs ws) (hlen : vs.length = params.length) :
    Advances P order V m.fresh (V.enterCall id params vs ws) m := by
  have hkept := push_bindAll_kept V.scopes id params vs
  have hlt : V.scopes.size <
      (bindAll (V.scopes.push id params none).2 V.scopes.size params vs).size :=
    (lt_size_push V.scopes id params).trans_le
      (bindAll_keptBut (lt_size_push ..) fun _ h => push_has _ _ h).size_le
  refine .enter hg ha hkept hlt fun x hx v h => ?_
  rw [get?_bindAll x (lt_size_push ..) (fun _ h => push_has _ _ h) hlen] at h
  cases hl : lastIndex? x params with
  | none => exact absurd hx (lastIndex?_eq_none.1 hl)
  | some j =>
    rw [hl] at h
    obtain ⟨v', hv', hvv⟩ := Option.map_eq_some_iff.1 h
    cases hvv
    obtain ⟨w, hw, hrep⟩ := getElem?_of_forall₂ hvs hv'
    simpa [hl, hw] using hrep

/-- The variables of a function are seen when its code starts: its parameters on the stack, and
what it has captured in its vector. -/
theorem enterCall_ready {body : Expr} {n : Nat} {g : Int}
    (hf : IsFunction P order V id params body n g)
    (hg : V.Good P order) (ha : V.Agrees m) (hvs : List.Forall₂ (Represents P order V) vs ws)
    (hlen : vs.length = params.length) (hst : m.stack = ws ++ st) (hgp : m.gp = g) :
    ∃ scope l s t c, (codeBy order .reference scope 0 body).Gives s c t ∧
      Placed P n (.label (.text l) :: (c ++ [.popenv])) ∧
      Ready P order (V.enterCall id params vs ws) m V.scopes.size scope 0 (Free · body) := by
  obtain ⟨hid, -, captured, scope, l, s, t, c, hc, hp, hfree, hcap⟩ := hf
  have hadv : Advances P order V m.fresh (V.enterCall id params vs ws) m :=
    enterCall_advances hg ha hvs hlen
  have hpush := lt_size_push V.scopes id params
  have hkept : (V.scopes.push id params none).2.KeptBut V.scopes.size
      (V.enterCall id params vs ws).scopes := bindAll_keptBut hpush fun _ h => push_has _ _ h
  have hhome : ∀ x, (V.enterCall id params vs ws).scopes.home V.scopes.size x =
      (V.scopes.push id params none).2.home V.scopes.size x :=
    fun x => hkept.home_eq x _ hpush
  refine ⟨_, l, s, t, c, hc, hp, hadv.good, hadv.agrees, hpush.trans_le hkept.size_le,
    fun x hx => ?_⟩
  cases hl : lastIndex? x params with
  | some j =>
    have hmem : x ∈ params := by
      by_contra hmem
      rw [lastIndex?_eq_none.2 hmem] at hl; cases hl
    have hself : (V.enterCall id params vs ws).scopes.home V.scopes.size x = V.scopes.size :=
      (hhome x).trans (Forest.home_push_of_mem _ _ _ _ hmem)
    have hj : j < ws.length := by
      rw [← hvs.length_eq, hlen]
      exact (List.getElem?_eq_some_iff.1 (getElem?_of_lastIndex? hl)).1
    refine ⟨?_, ⟨.local_, 0 + -1 * j, none⟩, ?_, .inl ⟨rfl, j, ?_, ?_⟩⟩
    · rw [View.Knows, hself]; exact .inr ⟨rfl, hmem⟩
    · rw [List.lookup_append, functionSlots, lookup_slotsFrom, hl]; rfl
    · show (0 : Int) - (0 + -1 * j) = j; omega
    · rw [View.address, hself, View.enterCall, View.enter_place, hst,
        List.getElem?_append_left hj]
      simp [hl, hj]
  | none =>
    have hmem : x ∉ params := lastIndex?_eq_none.1 hl
    obtain ⟨j, hj⟩ : ∃ j, lastIndex? x captured = some j := by
      cases hlc : lastIndex? x captured with
      | some j => exact ⟨j, rfl⟩
      | none => exact absurd ((hfree x hx).resolve_left hmem) (lastIndex?_eq_none.1 hlc)
    obtain ⟨hk, hw⟩ := hcap j x (getElem?_of_lastIndex? hj)
    have hout : (V.enterCall id params vs ws).scopes.home V.scopes.size x = V.scopes.home id x :=
      (hhome x).trans (Forest.home_push_of_not_mem _ _ _ _ hid hmem)
    refine ⟨?_, ⟨.global, 0 + 1 * j, none⟩, ?_, .inr ⟨rfl, ?_⟩⟩
    · rw [View.Knows, hout]; exact .inl hk
    · rw [List.lookup_append, functionSlots, lookup_slotsFrom, hl, lookup_slotsFrom, hj]; rfl
    · rw [View.address, hout, hadv.extends_.place hk, hgp]
      show V.heap (g + 2 + (0 + 1 * (j : Int))) = _
      rw [show g + 2 + (0 + 1 * (j : Int)) = g + 2 + j by omega]
      exact hw

end call


end ExprLang.MaMa
