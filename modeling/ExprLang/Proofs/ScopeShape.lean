/-
  Scopes keep their shape.

  The shape of a scope is its parent, the struct that it belongs to, and the names that it binds.  A
  region says what it is for each scope in it, and says so for good (`Region.Holds.shape_eq`); only
  the names in a root for code are left open, and such roots are the global scope and those of
  imported files (`Course.root_cases`).

  * `scopes_keep_shape`: from one effect of a session to any later one all scopes keep their shape,
    but for the lexical roots, which may gain names.  So a name refers to the same scope for good,
    and what `this` means can be read off the text of the programs;
  * `procedure_in_lambda_has_no_this`: in a procedure it means nothing, though a function around it
    may belong to a struct.
-/
import ExprLang.Proofs.Encapsulation

namespace ExprLang

/-! ## The shape that a role says -/

namespace Role

/-- The parent of a scope. -/
def outer : Role → Option Nat
  | .code _ outer _ => outer
  | .struct outer _ => outer

/-- The struct that a scope belongs to. -/
def within : Role → Option Nat
  | .code within _ _ => within
  | .struct _ _ => none

/-- The names that a scope binds, if it is no root for code. -/
def names : Role → List String
  | .code _ _ names => names
  | .struct _ names => names

end Role

namespace Region

variable {r r' : Region} {f g : Forest Value Nat} {s : Scope Value Nat} {role : Role} {k : Nat}

theorem Fits.parent_eq (hs : r.Fits s role) : s.parent = role.outer := by
  cases hs with
  | code _ _ _ _ => rfl
  | struct _ _ _ _ => rfl

theorem Fits.mark_eq (hs : r.Fits s role) : s.mark = role.within := by
  cases hs with
  | code _ _ _ _ => rfl
  | struct _ _ unmarked _ => exact unmarked

theorem Fits.has_iff (hs : r.Fits s role) (hroot : ∀ own names, role ≠ .code own none names)
    (x : String) : s.vars.has x = true ↔ x ∈ role.names := by
  cases hs with
  | @code names _ _ _ bound =>
    refine bound (fun hparent => ?_) x
    exact hroot s.mark names (by rw [hparent])
  | struct _ members _ _ => exact members x

theorem Holds.shape_eq (hr : r.Holds f) (hr' : r'.Holds g) (hk : r k = some role)
    (hk' : r' k = some role) :
    g.parent? k = f.parent? k ∧ g.mark? k = f.mark? k ∧
      (¬ r.Root k → ∀ x, (g.vars k).has x = (f.vars k).has x) := by
  obtain ⟨s, hs, -, hfit⟩ := hr k role hk
  obtain ⟨t, ht, -, hfit'⟩ := hr' k role hk'
  refine ⟨?_, ?_, fun hroot x => ?_⟩
  · rw [Forest.parent?, Forest.parent?, hs, ht]
    exact hfit'.parent_eq.trans hfit.parent_eq.symm
  · rw [Forest.mark?, Forest.mark?, hs, ht]
    exact hfit'.mark_eq.trans hfit.mark_eq.symm
  · have hcode : ∀ own names, role ≠ .code own none names := by
      rintro own names rfl
      exact hroot ⟨own, names, hk⟩
    rw [Forest.vars, Forest.vars, hs, ht, Bool.eq_iff_iff]
    exact (hfit'.has_iff hcode x).trans (hfit.has_iff hcode x).symm

end Region

/-! ## Lexical roots -/

/-- An import adds the scope of its file: a new one without a parent. -/
structure Effect.AddsRoot (s : Effect) (k : Nat) : Prop where
  imports : s.Imports
  isNew : s.before.scopes.size ≤ k
  isIn : k < s.after.scopes.size
  parent : s.after.scopes.parent? k = none

/-- The global scope, or that of a file that was imported. -/
def LexicalRoot (effects : List Effect) (k : Nat) : Prop :=
  k = Session.globals ∨ ∃ s ∈ effects, s.AddsRoot k

namespace Course

variable {r r' r'' : Region} {f g h : Forest Value Nat} {k : Nat}

theorem root_cases {effects : List Effect} (hc : Course r f effects r' g) (hk : r'.Root k) :
    r.Root k ∨ ∃ s ∈ effects, s.AddsRoot k := by
  induction hc with
  | nil => exact .inl hk
  | @cons r r₁ _ _ _ s effects _ hs _ ih =>
    rcases ih hk with hk₁ | ⟨t, ht, hadds⟩
    · have hroot := hs.step.holds.root_parent? hk₁
      by_cases hlt : k < s.before.scopes.size
      · left
        obtain ⟨own, names, hk₁⟩ := hk₁
        cases hrole : r k with
        | none =>
          rw [(hs.step.others k hlt hrole).1] at hk₁
          exact nomatch hk₁
        | some role =>
          rw [hs.step.sub k role hrole] at hk₁
          exact ⟨own, names, by rw [hrole, hk₁]⟩
      · have hnew := Nat.not_lt.1 hlt
        exact .inr ⟨s, by simp, hs.roots k hk₁ hnew, hnew, hk₁.lt hs.step.holds, hroot⟩
    · exact .inr ⟨t, by simp [ht], hadds⟩

theorem split_append {as bs : List Effect} (hc : Course r f (as ++ bs) r'' h) :
    ∃ r' g, Course r f as r' g ∧ Course r' g bs r'' h := by
  induction as generalizing r f with
  | nil => exact ⟨r, f, .nil, hc⟩
  | cons s as ih =>
    cases hc with
    | cons hf hs hc =>
      obtain ⟨r', g, h₁, h₂⟩ := ih hc
      exact ⟨r', g, .cons hf hs h₁, h₂⟩

end Course

theorem Region.Step.total {r r' : Region} {f g : Forest Value Nat} (h : r.Step f r' g)
    (hall : ∀ k < f.size, ∃ role, r k = some role) : ∀ k < g.size, ∃ role, r' k = some role := by
  intro k hk
  by_cases hkf : k < f.size
  · obtain ⟨role, hrole⟩ := hall k hkf
    exact ⟨role, h.sub k role hrole⟩
  · exact h.added k (Nat.not_lt.1 hkf) hk

/-! ## Sessions -/

/-- In a session `this` can as well be handed down. -/
theorem Session.History.eval_eq_lexical {files : Files} {input : List String}
    {effects : List Effect} {w : World} (h : History files input effects w) (e : Option Expr) :
    (evalProgram e scope).exec w = (evalProgramLexical e scope).exec w := by
  obtain ⟨r, r', hr, hc, hscope, -⟩ := h.course
  have hholds := (hc.step hr).holds
  exact (evalProgram_sound hscope.has e w hholds).1.symm.trans
    (evalProgramLexical_sound hscope e w hholds).1

/-- **Scopes keep their shape.**  Take any session and two states of it, one after some of its
effects and one after some more.  All parents are older than their children, so that no chain of
them is a cycle.  Each scope of the first state has the same parent in the second and belongs to the
same struct; it has lost no name, and gained none unless it is the global scope or that of an
imported file.  So each name refers to the same scope as before, wherever it is used.  And to
evaluate a program is to evaluate it with `this` handed down: in the body of a function it is the
struct that the scope of the closure belongs to, which is the one that it belonged to when the
closure was made. -/
theorem scopes_keep_shape {files : Files} {input : List String}
    {earlier middle later : List Effect} {w : World}
    (h : Session.History files input (earlier ++ middle ++ later) w) :
    ∃ f g, Linked (Session.start files input).scopes earlier f ∧ Linked f middle g ∧
      Linked g later w.scopes ∧ f.size ≤ g.size ∧
      (∀ k p, g.parent? k = some p → p < k) ∧
      (∀ k < f.size, g.parent? k = f.parent? k ∧ g.mark? k = f.mark? k ∧
        (∀ x, (f.vars k).has x = true → (g.vars k).has x = true) ∧
        (¬ LexicalRoot earlier k → ∀ x, (g.vars k).has x = (f.vars k).has x) ∧
        ∀ x, g.home k x = f.home k x) ∧
      ∀ e, (evalProgram e Session.scope).exec w = (evalProgramLexical e Session.scope).exec w := by
  obtain ⟨r₀, r₃, hr₀, hc, -, hall₀, hglobals⟩ := h.course
  obtain ⟨r₂, g, hc, hlater⟩ := hc.split_append
  obtain ⟨r₁, f, hearlier, hmiddle⟩ := hc.split_append
  have hstep₁ := hearlier.step hr₀
  have hstep₂ := hmiddle.step hstep₁.holds
  have hall₁ := hstep₁.total hall₀
  have hall₂ := hstep₂.total hall₁
  have hshape : ∀ k < f.size, g.parent? k = f.parent? k ∧ g.mark? k = f.mark? k ∧
      (¬ r₁.Root k → ∀ x, (g.vars k).has x = (f.vars k).has x) := by
    intro k hk
    obtain ⟨role, hrole⟩ := hall₁ k hk
    exact hstep₁.holds.shape_eq hstep₂.holds hrole (hstep₂.sub k role hrole)
  have hhome : ∀ k < f.size, ∀ x, g.home k x = f.home k x := by
    refine fun k hk x => Forest.home_eq_of (fun k hk => (hshape k hk).1) (fun k hk hp => ?_) x k hk
    exact (hshape k hk).2.2 fun hroot => hp (hstep₁.holds.root_parent? hroot)
  refine ⟨f, g, hearlier.linked, hmiddle.linked, hlater.linked, hstep₂.size_le, fun k p hp => ?_,
    fun k hk => ?_, h.eval_eq_lexical⟩
  · by_cases hk : k < g.size
    · obtain ⟨role, hrole⟩ := hall₂ k hk
      exact hstep₂.holds.parent_lt hrole hp
    · rw [Forest.parent?, Array.getElem?_eq_none (Nat.not_lt.1 hk)] at hp
      cases hp
  · obtain ⟨hparent, hmark, hnames⟩ := hshape k hk
    refine ⟨hparent, hmark, hstep₂.names k, fun hlexical => hnames fun hroot => ?_, hhome k hk⟩
    rcases hearlier.root_cases hroot with hroot | hadds
    · exact hlexical (.inl (hglobals k hroot))
    · exact hlexical (.inr hadds)

/-- The program `local s = struct {.f = \ -> this} in s.f()`. -/
def methodProgram : Expr :=
  let p : Pos := ⟨[], 1, 1⟩
  .letIn p [⟨p, .var p "s", .struct p [⟨p, "f", .lambda p [] (.this p) false⟩] none⟩]
    (.call p (.member p (.var p "s") "f" 0) [])

def methodEffects : List Effect :=
  (evalProgramTraced (some methodProgram) Session.scope none (Session.start [] [])).2

/-- The scope in which the struct is given its member, and which the closure has, keeps its
    shape. -/
theorem method_scope_keeps_shape :
    let w := ((evalProgram (some methodProgram) Session.scope).exec (Session.start [] [])).2
    ∃ f g, Session.History [] [] (methodEffects.take 6 ++ methodEffects.drop 6 ++ []) w ∧
      Linked f (methodEffects.drop 6) g ∧ ¬ LexicalRoot (methodEffects.take 6) 4 ∧
      (∀ x, (g.vars 4).has x = (f.vars 4).has x) ∧ f.mark? 4 = some 3 ∧ g.mark? 4 = some 3 := by
  intro w
  have hhist : Session.History [] [] (methodEffects.take 6 ++ methodEffects.drop 6 ++ []) w := by
    rw [List.append_nil, List.take_append_drop]
    exact Session.History.program .start (some methodProgram)
  obtain ⟨f, g, hf, hg, -, -, -, hshape, -⟩ := scopes_keep_shape hhist
  have hopened : (methodEffects.get ⟨5, by decide +kernel⟩).after.scopes = f := hf.2.2.2.2.2.2
  have hmark : f.mark? 4 = some 3 := by
    rw [← hopened]
    rfl
  have hlt : 4 < f.size := by
    rw [← hopened]
    decide +kernel
  have hroot : ¬ LexicalRoot (methodEffects.take 6) 4 := by
    have hparent : ∀ s ∈ methodEffects.take 6, s.after.scopes.size ≤ 4 ∨
        s.after.scopes.parent? 4 = some 2 := by decide +kernel
    rintro (h | ⟨s, hs, hadds⟩)
    · exact nomatch h
    · rcases hparent s hs with hsize | hp
      · exact absurd hadds.isIn (Nat.not_lt.2 hsize)
      · rw [hadds.parent] at hp
        exact nomatch hp
  obtain ⟨-, hsame, -, hnames, -⟩ := hshape 4 hlt
  exact ⟨f, g, hhist, hg, hroot, hnames hroot, hmark, hsame.trans hmark⟩

theorem Value.eq_null_of_typeName {v : Value} (h : v.typeName = "NoneType") : v = .null := by
  unfold Value.typeName at h
  split at h
  · rfl
  all_goals simp at h

/-- The function of a struct calls a procedure that gives `this`.  The scope of its closure belongs
    to the struct, and yet the call gives nothing. -/
theorem procedure_in_lambda_has_no_this :
    let w := ((Session.evalText "s = struct \x7b.f = \\ -> (proc () -> this)()\x7d").exec
      (Session.start [] [])).2
    ((w.scopes.vars 2).get? "f").map (Value.owner w.scopes) = some (some 2) ∧
      ((Session.evalText "s.f()").exec w).1 = .ok .null := by
  intro w
  have hcall : ((Session.evalText "s.f()").exec w).1.toOption.map Value.typeName =
      some "NoneType" := by decide +kernel
  refine ⟨by decide +kernel, ?_⟩
  generalize ((Session.evalText "s.f()").exec w).1 = ended at hcall ⊢
  cases ended with
  | error f => cases hcall
  | ok v => rw [Value.eq_null_of_typeName (Option.some.inj hcall)]

end ExprLang
