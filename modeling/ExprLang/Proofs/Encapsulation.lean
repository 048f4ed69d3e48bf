/-
  Encapsulation of structs, and isolation of imports.

  A session evaluates programs, one after another, and each has effects (`Session.History`).  All of
  them keep to one region that grows from the scopes that a session starts with
  (`History.course`).  What a request to interpret does is such a session (`interpret_history`).

  * `struct_encapsulated`: a struct has the members that it was made with, and each of them changes
    only when it is assigned in a scope that belongs to the struct;
  * `import_isolated`: an import keeps to a region of new scopes.
-/
import ExprLang.Command
import ExprLang.Proofs.Confinement

namespace ExprLang

open Run

/-! ## Sessions -/

namespace Session

theorem start_region (files : Files) (input : List String) :
    ∃ r : Region, r.Holds (start files input).scopes ∧ r.Within scope none ∧
      (∀ k < (start files input).scopes.size, ∃ role, r k = some role) ∧
      ∀ k, r.Root k → k = globals := by
  let w₀ := emptyWorld files input
  let w₁ := ((addScope Forest.addRoot).exec w₀).2
  let r₁ := Region.empty.put globals (.code none none [])
  have h₁ : Region.Step .empty w₀.scopes r₁ w₁.scopes :=
    (Region.Holds.empty w₀.scopes).add (Region.fits_root _)
  have hroot : r₁.Within globals none := ⟨_, _, Region.put_self⟩
  obtain ⟨r, h₂, hinner⟩ := pushBuiltins_plain hroot w₁ h₁.holds
  exact ⟨r, h₂.holds, hinner scope rfl, fun k hk => (h₁.trans h₂.toStep).added k (Nat.zero_le k) hk,
    fun k hk => Nat.lt_one_iff.1 (h₂.roots k hk)⟩

/-- A session so far: the effects of the programs that it has evaluated, and the world. -/
inductive History (files : Files) (input : List String) : List Effect → World → Prop where
  | start : History files input [] (start files input)
  /-- It evaluates a program, to a value or to a fault. -/
  | program {effects : List Effect} {w : World} (h : History files input effects w)
    (e : Option Expr) : History files input (effects ++ (evalProgramTraced e scope none w).2)
      ((evalProgram e scope).exec w).2
  /-- Between programs it may change all but the scopes. -/
  | between {effects : List Effect} {w u : World} (h : History files input effects w)
    (hu : u.scopes = w.scopes) : History files input effects u

variable {files : Files} {input : List String} {effects : List Effect} {w : World}

theorem History.course (h : History files input effects w) :
    ∃ r r' : Region, r.Holds (Session.start files input).scopes ∧
      Course r (Session.start files input).scopes effects r' w.scopes ∧
      r'.Within scope none ∧
      (∀ k < (Session.start files input).scopes.size, ∃ role, r k = some role) ∧
      ∀ k, r.Root k → k = globals := by
  induction h with
  | start =>
    obtain ⟨r, hr, hscope, hstart⟩ := start_region files input
    exact ⟨r, r, hr, .nil, hscope, hstart⟩
  | @program effects w _ e ih =>
    obtain ⟨r, r₁, hr, hc, hscope, hstart⟩ := ih
    obtain ⟨-, r₂, hc', -⟩ := evalProgram_sound hscope.has e w (hc.step hr).holds
    exact ⟨r, r₂, hr, hc.append hc', (hc'.step (hc.step hr).holds).sub.within hscope, hstart⟩
  | between _ hu ih => rwa [hu]

theorem History.traced_eq (h : History files input effects w) (e : Option Expr) :
    (evalProgramTraced e scope none w).1 = (evalProgram e scope).exec w := by
  obtain ⟨r, r', hr, hc, hscope, -⟩ := h.course
  exact (evalProgram_sound hscope.has e w (hc.step hr).holds).1

/-- A session goes on with a computation. -/
def Continues {α : Type} (m : Run α) : Prop :=
  ∀ (files : Files) (input : List String) (effects : List Effect) (w : World),
    History files input effects w → ∃ more, History files input (effects ++ more) (m.exec w).2

namespace Continues

variable {α β : Type} {m : Run α}

theorem quiet (hm : Quiet m fun _ => True) : Continues m :=
  fun _ _ _ w h => ⟨[], by rw [List.append_nil]; exact h.between (hm w).1⟩

theorem program (e : Option Expr) : Continues (evalProgram e scope) :=
  fun _ _ _ _ h => ⟨_, h.program e⟩

theorem bind {k : α → Run β} (hm : Continues m) (hk : ∀ a, Continues (k a)) :
    Continues (m >>= k) := by
  intro files input effects w h
  obtain ⟨more, h'⟩ := hm files input effects w h
  rw [ExceptT.exec_bind]
  rcases hmw : m.exec w with ⟨_ | a, u⟩
  · rw [hmw] at h'
    exact ⟨more, h'⟩
  · rw [hmw] at h'
    obtain ⟨most, h''⟩ := hk a files input _ u h'
    exact ⟨more ++ most, by rw [← List.append_assoc]; exact h''⟩

theorem caught (hm : Continues m) : Continues (ExceptT.lift m.run : Run (Except Fault α)) := hm

end Continues

theorem evalText_continues (text : String) : Continues (evalText text) :=
  (Continues.quiet (.ofExcept fun _ _ => trivial)).bind .program

theorem show_continues (v : Value) : Continues (do writeLine (← textOf v)) :=
  .quiet ((textOf_quiet v).bind' fun _ => write_quiet _)

theorem round_continues (stopOnError : Bool) : Continues (round stopOnError) := by
  have hturn : Continues turn :=
    (Continues.quiet (readLine_quiet _)).bind fun line => (evalText_continues line).bind
      show_continues
  refine hturn.caught.bind fun ended => ?_
  cases ended with
  | ok u => exact .quiet (.pure trivial)
  | error f =>
    dsimp only
    split
    · exact .quiet (.pure trivial)
    split
    · exact .quiet (.throw f)
    · refine (Continues.quiet (.ofExcept fun _ _ => trivial)).bind fun text => ?_
      exact (Continues.quiet (write_quiet _)).bind fun _ => .quiet (.pure trivial)

theorem repl_continues (stopOnError : Bool) : ∀ n, Continues (repl stopOnError n)
  | 0 => .quiet (.pure trivial)
  | n + 1 => by
    refine (round_continues stopOnError).bind fun more => ?_
    cases more with
    | false => exact .quiet (.pure trivial)
    | true => exact repl_continues stopOnError n

theorem interpret_history (r : InterpretRequest) (files : Files) (input : List String) :
    ∃ effects, History files input effects ((interpret r).exec (start files input)).2 := by
  have hread : ∀ {k : World → Run Unit}, (∀ w, Continues (k w)) → Continues (get >>= k) :=
    fun hk => .bind (.quiet fun _ => ⟨rfl, fun _ _ => trivial⟩) hk
  have hfile : ∀ path, Continues (interpretFile path) := fun path =>
    hread fun w => (Continues.quiet (.ofExcept fun _ _ => trivial)).bind
      fun e => (Continues.program (some e)).bind show_continues
  have hrepl : Continues (do
      if r.repl then repl r.stopOnError ((← get).input.length + 1)) := by
    split
    · exact hread fun w => repl_continues _ _
    · exact .quiet (.pure trivial)
  have hnamed : Continues (interpretNamed r) := by
    unfold interpretNamed
    split
    · split
      · exact .quiet (.pure trivial)
      · exact hfile _
    · exact .quiet (.pure trivial)
  have hall : Continues (interpret r) := hnamed.bind fun _ => hrepl
  obtain ⟨effects, h⟩ := hall files input [] _ .start
  exact ⟨effects, h⟩

end Session

/-! ## Structs -/

theorem Effect.Respects.assigns {s : Effect} {r r' : Region} {id : Nat} {x : String}
    (hs : s.Respects r r') (hid : r.Has (.struct id))
    (hx : (s.after.scopes.vars id).get? x ≠ (s.before.scopes.vars id).get? x) :
    s.Assigns id x := by
  rcases hs.structs id hid with hsame | ⟨y, v, hassigns, hafter⟩
  · refine absurd ?_ hx
    rw [Forest.vars, Forest.vars, hsame]
  · by_cases hxy : x = y
    · subst hxy
      exact hassigns
    · refine absurd ?_ hx
      rw [hafter, Forest.get?_vars_bind_ne hxy]

namespace Course

variable {r r' : Region} {f g : Forest Value Nat} {id : Nat} {names : List String}

theorem split {earlier later : List Effect} {s : Effect}
    (hc : Course r f (earlier ++ s :: later) r' g) :
    ∃ r₁ r₂, s.Respects r₁ r₂ ∧ Course r₂ s.after.scopes later r' g := by
  induction earlier generalizing r f with
  | nil =>
    cases hc with
    | cons _ hs hc => exact ⟨_, _, hs, hc⟩
  | cons _ _ ih =>
    cases hc with
    | cons _ _ hc => exact ih hc

/-- The members of a struct stay what they are, and each change of one is its assignment. -/
theorem encapsulated {effects : List Effect} (hc : Course r f effects r' g)
    (hid : r.Members id names) : ∀ s ∈ effects,
    (∀ x, (s.after.scopes.vars id).has x = true ↔ x ∈ names) ∧
      ∀ x, (s.after.scopes.vars id).get? x ≠ (s.before.scopes.vars id).get? x →
        s.Assigns id x := by
  induction hc with
  | nil => exact nofun
  | @cons r r₁ _ _ _ s effects _ hs _ ih =>
    have hid₁ := hs.step.sub.members hid
    intro t ht
    rcases List.mem_cons.1 ht with rfl | ht
    · exact ⟨hs.step.holds.has_vars hid₁, fun x hx => hs.assigns ⟨names, hid⟩ hx⟩
    · exact ih hid₁ t ht

end Course

/-- **Structs are encapsulated.**  Take any session and a struct that a struct expression made in
it.  From then on the struct has exactly the members that its fields name, and wherever an effect
changes one of them, it is the effect of a member assignment to that name, evaluated in a scope that
belongs to this very struct.  Nothing happens between the effects. -/
theorem struct_encapsulated {files : Files} {input : List String} {earlier later : List Effect}
    {made : Effect} {w : World} {id : Nat} {fields : List (Field Expr)}
    (h : Session.History files input (earlier ++ made :: later) w) (hmade : made.Makes id fields) :
    Linked made.after.scopes later w.scopes ∧
      ∀ x, ((made.after.scopes.vars id).has x = true ↔ x ∈ fields.map (·.name)) ∧
        ∀ s ∈ later, ((s.after.scopes.vars id).has x = true ↔ x ∈ fields.map (·.name)) ∧
          ((s.after.scopes.vars id).get? x ≠ (s.before.scopes.vars id).get? x →
            ∃ pos value scope, s.doer = some (.memberAssign pos x value, scope) ∧
              s.before.scopes.mark? scope = some id) := by
  obtain ⟨_, _, _, hc, _⟩ := h.course
  obtain ⟨_, _, hs, hc⟩ := hc.split
  have hid := hs.made id fields hmade
  refine ⟨hc.linked, fun x => ⟨hs.step.holds.has_vars hid x, fun s hm => ?_⟩⟩
  obtain ⟨hnames, hassigns⟩ := hc.encapsulated hid s hm
  exact ⟨hnames x, hassigns x⟩

/-- The fields of `struct {.on = true; .inner = struct {.on = false}}`. -/
def lampFields : List (Field Expr) :=
  let p : Pos := ⟨[], 1, 1⟩
  [⟨p, "on", .bool p true⟩, ⟨p, "inner", .struct p [⟨p, "on", .bool p false⟩] none⟩]

def lampEffects : List Effect :=
  (evalProgramTraced (some (.struct ⟨[], 1, 1⟩ lampFields none)) Session.scope none
    (Session.start [] [])).2

/-- The member of the outer struct changes when it is assigned there. -/
theorem struct_encapsulated_lamp :
    ∃ earlier made later w s, Session.History [] [] (earlier ++ made :: later) w ∧
      made.Makes 2 lampFields ∧ s ∈ later ∧
      (s.after.scopes.vars 2).get? "on" ≠ (s.before.scopes.vars 2).get? "on" ∧
      ∃ pos value scope, s.doer = some (.memberAssign pos "on" value, scope) ∧
        s.before.scopes.mark? scope = some 2 := by
  let w := Session.start [] []
  let made : Effect := ⟨some (.struct ⟨[], 1, 1⟩ lampFields none, Session.scope), w,
    ((openStruct none (lampFields.map (·.name)) Session.scope).exec w).2⟩
  let s := lampEffects.get ⟨6, by decide +kernel⟩
  have hhist : Session.History [] [] (lampEffects.take 1 ++ made :: lampEffects.drop 2) _ :=
    Session.History.program .start (some (.struct ⟨[], 1, 1⟩ lampFields none))
  have hmade : made.Makes 2 lampFields := by
    simp only [made, exec_openStruct_none]
    exact opened_makes w ⟨[], 1, 1⟩ lampFields none none Session.scope
  have hs : s ∈ lampEffects.drop 2 := List.mem_of_getElem? (i := 4) rfl
  have hbefore : (s.before.scopes.vars 2).get? "on" = some .null := rfl
  have hafter : (s.after.scopes.vars 2).get? "on" = some (.bool true) := rfl
  have hon : (s.after.scopes.vars 2).get? "on" ≠ (s.before.scopes.vars 2).get? "on" := by
    rw [hbefore, hafter]
    exact nofun
  exact ⟨_, made, _, _, s, hhist, hmade, hs, hon,
    (((struct_encapsulated hhist hmade).2 "on").2 s hs).2 hon⟩

/-! ## Imports -/

/-- The world with a new root scope that binds the built-ins. -/
def World.withModule (w : World) : World :=
  ((defineBuiltins w.scopes.size).exec { w with scopes := w.scopes.addRoot.2 }).2

theorem exec_import (room : Nat) (go : Nat → Evaluator Run) (pos : Pos) (path : String)
    (scope : Nat) (w : World) :
    (evalNode room go (.importFile pos path) scope).exec w =
      match parseFile (room - 1) w.files path with
      | .ok e => (go 0 e w.scopes.size).exec w.withModule
      | .error f => (.error (.read f), w) := by
  have hread : (evalNode room go (.importFile pos path) scope).exec w =
      (Run.ofExcept ((parseFile (room - 1) w.files path).mapError .read) >>= fun e => do
        let root ← addScope Forest.addRoot
        defineBuiltins root
        go 0 e root : Run Value).exec w := rfl
  rw [hread, ExceptT.exec_bind, exec_ofExcept]
  cases parseFile (room - 1) w.files path with
  | ok e => rfl
  | error f => rfl

/-- **Imports are isolated.**  To import a file is to evaluate it in a new root scope.  Whatever it
holds, and whether this ends with a value or a fault, all scopes that were there before are as they
were: their variables and values, their parents and the structs that they belong to. -/
theorem import_isolated (room : Nat) (pos : Pos) (path : String) (scope : Nat) (w : World) :
    let imported :=
      (evalNode room (fun used => eval (room - used)) (.importFile pos path) scope).exec w
    (imported = match parseFile (room - 1) w.files path with
      | .ok e => (eval room e w.scopes.size).exec w.withModule
      | .error f => (.error (.read f), w)) ∧
    w.scopes.Kept imported.2.scopes := by
  intro imported
  refine ⟨exec_import room _ pos path scope w, ?_⟩
  have hgo : ∀ used, SoundEvaluator (evalTraced (room - used)) fun _ => eval (room - used) :=
    fun used => eval_sound (room - used)
  -- In the empty region all scopes are outside, so that none of them is touched.
  have hsound : Sound (some (.importFile pos path, scope)) .empty
      (evalNode room (fun used => evalTraced (room - used)) (.importFile pos path) scope)
      (evalNode room (fun used => eval (room - used)) (.importFile pos path) scope) Safe :=
    import_sound hgo none pos path scope
  obtain ⟨-, r, hc, -⟩ := hsound w (.empty _)
  have hstep := hc.step (.empty _)
  exact ⟨hstep.size_le, fun k hk => (hstep.others k hk rfl).2⟩

end ExprLang
