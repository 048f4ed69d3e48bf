/-
  How compiling can fail.

  A generator can meet a sequence without parts, or a `local` with a bare target, and then fails in
  a way that no one is told of.  No text is read as such an expression: the only bare targets are
  those of `fun`, and no generator goes into what is assigned to a bare name.

  * `Grammar.tree_complete`, `complete_of_parse`: a text is read as a complete expression, which has
    all that generators need where they reach;
  * `Gen.Declared`: a generator fails in the declared ways only; so do the generators of both
    machines on complete expressions (`compileBy_declared`);
  * `program_of_compileBy`: whatever a generator gives, has an assembly text;
  * `compile_ends_as_declared`: so compiling a text that can be read ends with an assembly program,
    or fails because a variable or an operator is not known or an expression has no code.
-/
import ExprLang.Proofs.Listings
import Mathlib

namespace ExprLang

/-! ## Complete expressions -/

namespace Grammar

open ExprLang.Expr

theorem assign_complete {p : Pos} {t : Target} {a : Expr} (ha : a.Complete) :
    (Expr.assign p t a).Complete := by
  refine complete_iff.2 ⟨trivial, ?_⟩
  cases t <;> simp [Expr.reached, Expr.parts, ha]

theorem functionExpr_complete (p : Pos) (f : String) (params : List String) (body : Expr)
    (rest : Bool) : (functionExpr p f params body rest).Complete :=
  .node trivial (by simp [functionExpr, Expr.reached])

theorem setter_complete (p : Pos) (x : String) : (setter p x).value.Complete := by
  have hvar : (Expr.var p x).Complete := .node trivial (by simp [Expr.reached, Expr.parts])
  have hassign : (Expr.memberAssign p x (.var p x)).Complete :=
    .node trivial (by simpa [Expr.reached, Expr.parts] using hvar)
  exact .node trivial (by simpa [setter, Expr.reached, Expr.parts] using hassign)

-- The induction follows how trees are read.  Every case says that the new node is filled and that
-- its parts are the ones that were read, so that one call closes them all.
theorem tree_complete :
    (∀ t : Tree, ∀ e, t.expr? = some e → e.Complete) ∧
    (∀ t : Tree, ∀ f, t.memberAssignment? = some f → f.value.Complete) ∧
    (∀ t : Tree, ∀ fs, t.fields? = some fs → AllComplete (fs.map (·.value))) ∧
    (∀ t : Tree, ∀ fs, t.field? = some fs → AllComplete (fs.map (·.value))) ∧
    (∀ t : Tree, ∀ es, t.entries? = some es → AllComplete (es.flatMap fun (k, v) => [k, v])) ∧
    (∀ t : Tree, ∀ e, t.entry? = some e → e.1.Complete ∧ e.2.Complete) ∧
    (∀ t : Tree, ∀ es, t.arguments? = some es → AllComplete es) ∧
    (∀ t : Tree, ∀ bs, t.bindings? = some bs →
      AllComplete (bs.map (·.value)) ∧ ∀ b ∈ bs, b.target.IsVar) ∧
    (∀ t : Tree, ∀ b, t.assignment? = some b → b.value.Complete ∧ b.target.IsVar) ∧
    (∀ t : Tree, ∀ es, t.sequence? = some es → es ≠ [] ∧ AllComplete es) := by
  apply Tree.expr?.mutual_induct
  all_goals
    intros
    rename_i h
    simp only [Tree.expr?, Tree.memberAssignment?, Tree.fields?, Tree.field?, Tree.entries?,
      Tree.entry?, Tree.arguments?, Tree.bindings?, Tree.assignment?, Tree.sequence?,
      Option.bind_eq_bind, Option.bind_eq_some_iff, Option.pure_def, Option.some.injEq,
      reduceCtorEq] at h
  all_goals grind [complete_iff, Expr.Filled, Expr.reached, Expr.parts, Target.IsVar,
    assign_complete, functionExpr_complete, setter_complete, allComplete_nil, allComplete_cons,
    allComplete_append, List.append_eq_nil_iff]

end Grammar

theorem complete_of_parse {text : String} {e : Option Expr} (h : parse text = .ok e) :
    ∀ a ∈ e, a.Complete := by
  unfold parse at h
  split at h
  · cases h
    exact fun a ha => Grammar.tree_complete.1 _ a ha
  · cases h
    simp
  all_goals cases h

/-! ## Declared failures -/

/-- A generator fails in declared ways only. -/
def Gen.Declared {α : Type} (g : Gen α) : Prop := ∀ s, FailsAsDeclared (g.run.run s).1

theorem Gen.Declared.bind {α β : Type} {g : Gen α} {k : α → Gen β} (hg : g.Declared)
    (hk : ∀ a, (k a).Declared) : (g >>= k).Declared := by
  intro s
  rw [run_bind]
  rcases hrun : g.run.run s with ⟨f | a, t⟩
  · exact .error (hg s f (by rw [hrun]))
  · exact hk a t

theorem Gen.Steps.declared {α : Type} {A : String → Prop} {g : Gen α}
    (h : g.Steps GenFault.Declared A) : g.Declared := by
  induction h with
  | pure | freshLabel | slot? => exact fun _ => .ok _
  | throw h => exact fun _ => .error h
  | lift h => exact fun _ => h
  | bind _ _ ihg ihk => exact ihg.bind ihk
  | declare =>
    refine Gen.Declared.bind (fun _ => .ok _) fun r => ?_
    split
    · exact fun _ => .ok ()
    · exact fun _ => .ok ()

/-! ## Compiling a text -/

theorem compileBy_declared (order : MaMa.CaptureOrder) (vm : Vm) {e : Option Expr}
    (h : ∀ a ∈ e, a.Complete) : (compileBy order vm e).Declared := by
  have hcode : (codeBy order vm e).Declared := by
    cases vm with
    | cma =>
      exact ((CMa.valueOrZero_steps .nil e (fun a ha => .of_complete (h a ha))
        fun _ _ => trivial).bind fun _ => .pure _).declared
    | mama =>
      exact ((MaMa.codeOrZeroBy_steps order .basic [] 0 e
        fun a ha => .of_complete (h a ha)).bind fun _ => .pure _).declared (A := fun _ => True)
  have hmodify : (modify fun s => { s with globals := [] } : Gen Unit).Declared := fun _ => .ok ()
  have hget : (get : Gen GenState).Declared := fun s => .ok s
  exact hmodify.bind fun _ => hcode.bind fun _ => hget.bind fun _ => fun _ => .ok _

/-- Generated code has an assembly program. -/
theorem program_of_compileBy {order : MaMa.CaptureOrder} {vm : Vm} {e : Option Expr}
    {c : Compiled} {s t : GenState} (h : (compileBy order vm e).Gives s c t) :
    ∃ program, c.program vm = .ok program := by
  have hasm : ∃ text, assemble vm (.block c.code) = .ok text := by
    have hcode := compileBy_gives h
    cases vm with
    | cma =>
      obtain ⟨is, _, -, hcs⟩ := Gen.gives_bind.1 hcode
      obtain ⟨hc, -⟩ := Gen.gives_pure.1 hcs
      have htexts : ∀ i ∈ CMa.Item.flatList is, ∃ t, assemble .cma i.cell = .ok t :=
        fun i _ => ⟨i.text, CMa.assemble_cell i⟩
      obtain ⟨texts, -, hasm⟩ := assemble_instructions (CMa.openedAll_cells is) htexts
      exact ⟨_, hc ▸ hasm⟩
    | mama =>
      obtain ⟨is, _, his, hcs⟩ := Gen.gives_bind.1 hcode
      obtain ⟨hc, -⟩ := Gen.gives_pure.1 hcs
      have htexts : ∀ i ∈ is, ∃ t, assemble .mama i.cell = .ok t := fun i hi => by
        rw [assemble, MaMa.assemble_cell]
        exact MaMa.codeOrZeroBy_text his i hi
      obtain ⟨texts, -, hasm⟩ := assemble_instructions (MaMa.openedAll_cells is) htexts
      exact ⟨_, hc ▸ hasm⟩
  obtain ⟨text, hasm⟩ := hasm
  exact ⟨programText vm text c.globals.length, by rw [Compiled.program, hasm]; rfl⟩

/-- **Compiling fails only as declared.**  Whatever a text is read as, nothing at all included, for
    both machines, in any state and with any order of captured variables: compiling gives code that
    has an assembly program, or it fails because a variable or an operator is not known or because
    an expression has no code. -/
theorem compile_ends_as_declared {text : String} {e : Option Expr} (h : parse text = .ok e)
    (order : MaMa.CaptureOrder) (vm : Vm) (s : GenState) :
    (∃ c t program, (compileBy order vm e).Gives s c t ∧ c.program vm = .ok program) ∨
    (∃ f t, (compileBy order vm e).run.run s = (.error f, t) ∧
      (f.sort = .key ∨ f.sort = .unsupported)) := by
  have hdeclared := compileBy_declared order vm (complete_of_parse h) s
  rcases hrun : (compileBy order vm e).run.run s with ⟨f | c, t⟩
  · rw [hrun] at hdeclared
    exact .inr ⟨f, t, rfl, hdeclared f rfl⟩
  · obtain ⟨program, hprogram⟩ := program_of_compileBy hrun
    exact .inl ⟨c, t, program, hrun, hprogram⟩

/-- `local x = 1 in fun f -> x`: the MaMa has no code for the assignment of a function to `f`, and
    reports this before it meets the bare target of the `local` in it. -/
theorem compile_function_ends_as_declared :
    let p : Pos := ⟨[], 1, 1⟩
    let e : Expr := .letIn p [⟨p, .var p "x", .number p "1"⟩]
      (Grammar.functionExpr p "f" [] (.var p "x") false)
    parse "local x = 1 in fun f -> x" = .ok (some e) ∧
      ((∃ c t program, (compileBy MaMa.ascending .mama (some e)).Gives .initial c t ∧
          c.program .mama = .ok program) ∨
        ∃ f t, (compileBy MaMa.ascending .mama (some e)).run.run .initial = (.error f, t) ∧
          (f.sort = .key ∨ f.sort = .unsupported)) := by
  intro p e
  have hparse : parse "local x = 1 in fun f -> x" = .ok (some e) := by cbv
  exact ⟨hparse, compile_ends_as_declared hparse MaMa.ascending .mama .initial⟩

end ExprLang
