/-
  Evaluation with a record of its effects.

  `Traced` is a monad with the effects of a `Run` that writes each of them down (`Effect`): the
  worlds before and after it, and the expression and scope whose evaluation it belongs to.
  `evalTraced` evaluates in it as `eval` does in `Run`.

  * `Effect.Respects r r'`: an effect keeps to a region.  It leaves all structs alone, unless it is
    the assignment of a member in a scope that belongs to the struct; a struct that it makes has the
    members of its fields; and only an import adds a root for code;
  * `Course r f effects r' g`: so do all effects on the way from the scopes `f` to `g`;
  * `Sound doer r m x Q`: the traced computation `m` ends as `x` does, its effects are a course of
    the region, and what it gives satisfies `Q`.  It is closed under all that computations are built
    from.
-/
import ExprLang.Session
import ExprLang.Proofs.Regions
import ExprLang.Proofs.Runs

namespace ExprLang

/-- What a computation did to the world, and the expression and the scope that it is the evaluation
    of.  What the debugger does itself belongs to no expression. -/
structure Effect where
  doer : Option (Expr × Nat)
  before : World
  after : World

namespace Effect

/-- A struct expression with some fields makes the struct `id`: a new scope that another new one
    belongs to. -/
structure Makes (s : Effect) (id : Nat) (fields : List (Field Expr)) : Prop where
  doer : ∃ pos parent scope, s.doer = some (.struct pos fields parent, scope)
  isNew : s.before.scopes.size ≤ id
  opened : ∃ inner, s.before.scopes.size ≤ inner ∧ s.after.scopes.mark? inner = some id

/-- It is the assignment of the member `x` in a scope that belongs to the struct `id`. -/
def Assigns (s : Effect) (id : Nat) (x : String) : Prop :=
  ∃ pos value scope, s.doer = some (.memberAssign pos x value, scope) ∧
    s.before.scopes.mark? scope = some id

def Imports (s : Effect) : Prop := ∃ pos path scope, s.doer = some (.importFile pos path, scope)

/-- An effect keeps to a region, which may grow, and changes structs by assigning members only. -/
structure Respects (s : Effect) (r r' : Region) : Prop where
  step : Region.Step r s.before.scopes r' s.after.scopes
  structs : ∀ k, r.Has (.struct k) → s.after.scopes.scopes[k]? = s.before.scopes.scopes[k]? ∨
    ∃ x v, s.Assigns k x ∧ s.after.scopes = s.before.scopes.bind k x v
  made : ∀ id fields, s.Makes id fields → r'.Members id (fields.map (·.name))
  roots : ∀ k, r'.Root k → s.before.scopes.size ≤ k → s.Imports

theorem respects_of_plain {doer : Option (Expr × Nat)} {w u : World} {r r' : Region}
    (h : Region.PlainStep r w.scopes r' u.scopes) :
    (⟨doer, w, u⟩ : Effect).Respects r r' := by
  refine ⟨h.toStep, fun k hk => .inl (h.structs k hk), ?_,
    fun k hk hnew => absurd (h.roots k hk) (Nat.not_lt.2 hnew)⟩
  rintro id fields ⟨-, hid, inner, hinner, hmark⟩
  exact absurd (h.closed inner id hinner hmark) (Nat.not_lt.2 hid)

end Effect

/-- Effects that follow one another, from the scopes `f` to the scopes `g`. -/
def Linked (f : Forest Value Nat) : List Effect → Forest Value Nat → Prop
  | [], g => f = g
  | s :: effects, g => s.before.scopes = f ∧ Linked s.after.scopes effects g

/-- Effects that follow one another and keep to a region. -/
inductive Course : Region → Forest Value Nat → List Effect → Region → Forest Value Nat → Prop where
  | nil {r : Region} {f : Forest Value Nat} : Course r f [] r f
  | cons {r r' r'' : Region} {f g : Forest Value Nat} {s : Effect} {effects : List Effect}
    (hf : s.before.scopes = f) (hs : s.Respects r r') (h : Course r' s.after.scopes effects r'' g) :
    Course r f (s :: effects) r'' g

namespace Course

variable {r r' r'' : Region} {f g h : Forest Value Nat} {as bs : List Effect}

theorem append (h₁ : Course r f as r' g) (h₂ : Course r' g bs r'' h) :
    Course r f (as ++ bs) r'' h := by
  induction h₁ with
  | nil => exact h₂
  | cons hf hs _ ih => exact .cons hf hs (ih h₂)

theorem step (hc : Course r f as r' g) (hr : r.Holds f) : Region.Step r f r' g := by
  induction hc with
  | nil => exact .refl hr
  | cons hf hs _ ih =>
    subst hf
    exact hs.step.trans (ih hs.step.holds)

theorem linked (hc : Course r f as r' g) : Linked f as g := by
  induction hc with
  | nil => rfl
  | cons hf _ _ ih => exact ⟨hf, ih⟩

end Course

/-! ## Traced computations -/

/-- A computation that keeps a record of its effects; it is told whose they are. -/
def Traced (α : Type) : Type :=
  Option (Expr × Nat) → World → (Except Fault α × World) × List Effect

namespace Traced

instance : Monad Traced where
  pure a := fun _ w => ((.ok a, w), [])
  bind m k := fun doer w =>
    match m doer w with
    | ((.ok a, u), effects) => ((k a doer u).1, effects ++ (k a doer u).2)
    | ((.error f, u), effects) => ((.error f, u), effects)

theorem bind_apply {α β : Type} (m : Traced α) (k : α → Traced β) (doer : Option (Expr × Nat))
    (w : World) : (m >>= k) doer w = match m doer w with
      | ((.ok a, u), effects) => ((k a doer u).1, effects ++ (k a doer u).2)
      | ((.error f, u), effects) => ((.error f, u), effects) := rfl

instance : LawfulMonad Traced := LawfulMonad.mk' Traced
  (by
    intro α m
    funext doer w
    show (m >>= fun a => pure a) doer w = m doer w
    rw [bind_apply]
    rcases m doer w with ⟨⟨_ | a, u⟩, effects⟩
    · rfl
    · simp [pure])
  (by
    intro α β a k
    rfl)
  (by
    intro α β γ m k l
    funext doer w
    simp only [bind_apply]
    rcases m doer w with ⟨⟨_ | a, u⟩, effects⟩
    · rfl
    · dsimp only
      rcases k a doer u with ⟨⟨_ | b, v⟩, more⟩
      · rfl
      · simp [List.append_assoc])

/-- What a `Run` does is one effect. -/
instance : MonadLift Run Traced where
  monadLift x := fun doer w => (x.exec w, [⟨doer, w, (x.exec w).2⟩])

/-- A computation that is the evaluation of an expression. -/
def under {α : Type} (doer : Option (Expr × Nat)) (m : Traced α) : Traced α := fun _ w => m doer w

end Traced

/-- Evaluates an expression and keeps a record of the effects. -/
def evalTraced : Nat → Evaluator Traced :=
  nested (fun _ _ => (throw .tooDeep : Run Value)) fun room go e scope => do
    Traced.under none do
      if (← Run.world).debugger.stopsAt (some e) then
        Run.stop (go 1 · scope) (some e.pos) scope
    Traced.under (some (e, scope)) (evalNode room go e scope)

def evalProgramTraced (e : Option Expr) (scope : Nat) : Traced Value :=
  match e with
  | some e => evalTraced depthLimit e scope
  | none => do
    Traced.under none do
      if (← Run.world).debugger.stopsAt none then
        Run.stop (evalTraced (depthLimit - 2) · scope) none scope
    (throw .nothing : Run Value)

/-! ## Sound computations -/

/-- A traced computation ends as the other one, its effects keep to the region, and what it gives
    satisfies `Q`. -/
def Sound {α : Type} (doer : Option (Expr × Nat)) (r : Region) (m : Traced α) (x : Run α)
    (Q : Region → α → Prop) : Prop :=
  ∀ w, r.Holds w.scopes → (m doer w).1 = x.exec w ∧
    ∃ r', Course r w.scopes (m doer w).2 r' (x.exec w).2.scopes ∧ Gives (Q r') (x.exec w).1

/-- A value that leads to nothing outside of a region. -/
def Safe (r : Region) (v : Value) : Prop := v.Only r.Has

def AllSafe (r : Region) (vs : List Value) : Prop := ∀ v ∈ vs, Safe r v

theorem Safe.mono {r r' : Region} {v : Value} (hv : Safe r v) (h : r.Sub r') : Safe r' v :=
  h.only hv

theorem AllSafe.mono {r r' : Region} {vs : List Value} (hv : AllSafe r vs) (h : r.Sub r') :
    AllSafe r' vs :=
  fun v hm => (hv v hm).mono h

namespace Sound

variable {α β : Type} {doer : Option (Expr × Nat)} {r : Region} {m : Traced α} {x : Run α}
  {Q : Region → α → Prop} {R : Region → β → Prop}

theorem pure {a : α} (h : Q r a) : Sound doer r (pure a) (pure a) Q :=
  fun _ _ => ⟨rfl, r, .nil, .pure h⟩

theorem bind {k : α → Traced β} {l : α → Run β} (hm : Sound doer r m x Q)
    (hk : ∀ a r', r.Sub r' → Q r' a → Sound doer r' (k a) (l a) R) :
    Sound doer r (m >>= k) (x >>= l) R := by
  intro w hw
  obtain ⟨hend, r', hc, hq⟩ := hm w hw
  have hstep := hc.step hw
  rw [ExceptT.exec_bind, Traced.bind_apply]
  rcases hmw : m doer w with ⟨⟨res, u⟩, effects⟩
  rw [hmw] at hend hc
  rw [← hend] at hc hq hstep ⊢
  cases res with
  | error f => exact ⟨rfl, r', hc, nofun⟩
  | ok a =>
    obtain ⟨hend', r'', hc', hq'⟩ := hk a r' hstep.sub (hq a rfl) u hstep.holds
    exact ⟨hend', r'', hc.append hc', hq'⟩

theorem map {f : α → β} (hm : Sound doer r m x Q) (hf : ∀ r' a, Q r' a → R r' (f a)) :
    Sound doer r (f <$> m) (f <$> x) R := by
  rw [map_eq_pure_bind, map_eq_pure_bind]
  exact hm.bind fun a r' _ ha => .pure (hf r' a ha)

theorem under {d : Option (Expr × Nat)} (hm : Sound d r m x Q) :
    Sound doer r (Traced.under d m) x Q :=
  hm

theorem own (hx : ∀ w, r.Holds w.scopes → ∃ r',
    (⟨doer, w, (x.exec w).2⟩ : Effect).Respects r r' ∧ Gives (Q r') (x.exec w).1) :
    Sound doer r (liftM x) (liftM x) Q := by
  intro w hw
  obtain ⟨r', hs, hq⟩ := hx w hw
  exact ⟨rfl, r', .cons rfl hs .nil, hq⟩

theorem mapM {f : α → Traced Value} {g : α → Run Value} : ∀ (l : List α) (r : Region),
    (∀ r', r.Sub r' → ∀ a ∈ l, Sound doer r' (f a) (g a) Safe) →
    Sound doer r (l.mapM f) (l.mapM g) AllSafe
  | [], r, _ => by
    rw [List.mapM_nil, List.mapM_nil]
    exact .pure nofun
  | a :: l, r, h => by
    rw [List.mapM_cons, List.mapM_cons]
    refine (h r (.refl r) a (by simp)).bind fun v r₁ h₁ hv => ?_
    refine (mapM l r₁ fun r' hr' b hb => h r' (h₁.trans hr') b (by simp [hb])).bind
      fun vs r₂ h₂ hvs => .pure ?_
    simpa [AllSafe] using ⟨hv.mono h₂, hvs⟩

theorem foldlM {f : β → α → Traced β} {g : β → α → Run β} : ∀ (l : List α) (r : Region) (b : β),
    (∀ r' b a, r.Sub r' → R r' b → Sound doer r' (f b a) (g b a) R) → R r b →
    Sound doer r (l.foldlM f b) (l.foldlM g b) R
  | [], _, _, _, hb => .pure hb
  | a :: l, r, b, h, hb => by
    rw [List.foldlM_cons, List.foldlM_cons]
    refine (h r b a (.refl r) hb).bind fun c r₁ h₁ hc => ?_
    exact foldlM l r₁ c (fun r' b a hr' => h r' b a (h₁.trans hr')) hc

theorem forIn {f : α → β → Traced (ForInStep β)} {g : α → β → Run (ForInStep β)} :
    ∀ (l : List α) (r : Region) (b : β),
    (∀ r' a b, r.Sub r' → Sound doer r' (f a b) (g a b) fun _ _ => True) →
    Sound doer r (forIn l b f) (forIn l b g) fun _ _ => True
  | [], r, b, _ => by
    rw [List.forIn_nil, List.forIn_nil]
    exact .pure trivial
  | a :: l, r, b, h => by
    rw [List.forIn_cons, List.forIn_cons]
    refine (h r a b (.refl r)).bind fun s r₁ h₁ _ => ?_
    cases s with
    | done c => exact .pure trivial
    | yield c => exact forIn l r₁ c fun r' a b hr' => h r' a b (h₁.trans hr')

end Sound

end ExprLang
