/-
  What code generators do, step by step.

  Generating code makes labels, looks variables up, declares global ones, and fails.  What holds of
  each of these steps, and of one after the other, holds of the generators of both machines.

  * `Gen.Steps F A`: a generator takes such steps only; its failures are as `F` says, and so are the
    variables that it declares as `A` says;
  * `Complete`: generators fail in the declared ways only on complete expressions (`Fails`);
  * `globalUses`: the global variables that an expression reads and writes, in the order of its code;
  * `CMa.value_steps`, `MaMa.codeBy_steps`: the generators take such steps only.
-/
import ExprLang.Proofs.CMaForms
import ExprLang.Proofs.MaMaCode

namespace ExprLang

/-! ## Complete expressions -/

/-- The target is a variable, with a position of its own. -/
def Target.IsVar : Target → Prop
  | .var .. => True
  | .bare _ => False

namespace Expr

/-- A sequence has a part, and a `local` binds variables. -/
def Filled : Expr → Prop
  | .sequence _ parts => parts ≠ []
  | .letIn _ bindings _ => ∀ b ∈ bindings, b.target.IsVar
  | _ => True

/-- The parts that generators go into. -/
def reached : Expr → List Expr
  | .assign _ (.bare _) _ => []
  | e => e.parts

/-- The expression and all that generators reach in it are filled. -/
inductive Complete : Expr → Prop
  | node {e : Expr} (own : e.Filled) (parts : ∀ a ∈ e.reached, Complete a) : Complete e

def AllComplete (es : List Expr) : Prop := ∀ e ∈ es, e.Complete

theorem complete_iff {e : Expr} : e.Complete ↔ e.Filled ∧ AllComplete e.reached :=
  ⟨fun ⟨own, parts⟩ => ⟨own, parts⟩, fun h => .node h.1 h.2⟩

theorem Complete.own {e : Expr} : e.Complete → e.Filled
  | node own _ => own

theorem Complete.part {e a : Expr} (ha : a ∈ e.reached) : e.Complete → a.Complete
  | node _ parts => parts a ha

@[simp] theorem allComplete_nil : AllComplete [] := by simp [AllComplete]

@[simp] theorem allComplete_cons {e : Expr} {es : List Expr} :
    AllComplete (e :: es) ↔ e.Complete ∧ AllComplete es := by simp [AllComplete]

@[simp] theorem allComplete_append {es fs : List Expr} :
    AllComplete (es ++ fs) ↔ AllComplete es ∧ AllComplete fs := by
  simp [AllComplete, or_imp, forall_and]

end Expr

/-! ## Failures -/

/-- The ways in which compiling may fail: something is not known, or has no code. -/
def GenFault.Declared (f : GenFault) : Prop := f.sort = .key ∨ f.sort = .unsupported

def FailsAsDeclared {α : Type} (r : Except GenFault α) : Prop := ∀ f, r = .error f → f.Declared

section
variable {α β : Type}

theorem FailsAsDeclared.ok (a : α) : FailsAsDeclared (.ok a) := by
  rintro f ⟨⟩

theorem FailsAsDeclared.error {f : GenFault} (h : f.Declared) :
    FailsAsDeclared (.error f : Except GenFault α) := by
  rintro _ ⟨⟩
  exact h

theorem FailsAsDeclared.bind {r : Except GenFault α} {k : α → Except GenFault β}
    (hr : FailsAsDeclared r) (hk : ∀ a, r = .ok a → FailsAsDeclared (k a)) :
    FailsAsDeclared (r >>= k) := by
  cases r with
  | error f => exact .error (hr f rfl)
  | ok a => exact hk a rfl

end

/-- The failures of a generator on an expression are as `F` says: declared ones are, and if the
    expression is not complete, all are. -/
def Expr.Fails (F : GenFault → Prop) (e : Expr) : Prop := ∀ f, f.Declared ∨ ¬ e.Complete → F f

namespace Expr.Fails

variable {F : GenFault → Prop} {e a : Expr}

theorem all (h : ∀ f, F f) : e.Fails F := fun f _ => h f

theorem of_complete (h : e.Complete) : e.Fails GenFault.Declared :=
  fun _ hf => hf.resolve_right fun hn => hn h

theorem part (h : e.Fails F) (ha : a ∈ e.reached) : a.Fails F :=
  fun f hf => h f (hf.imp_right fun hn he => hn (he.part ha))

/-- A failure of something that fails as declared on complete expressions. -/
theorem of_declared {α : Type} {r : Except GenFault α} (h : e.Fails F)
    (hr : e.Complete → FailsAsDeclared r) : ∀ f, r = .error f → F f := by
  intro f hf
  by_cases he : e.Complete
  · exact h f (.inl (hr he f hf))
  · exact h f (.inr he)

end Expr.Fails

/-! ## Steps -/

/-- The generator is made of these steps.  Its failures are as `F` says, and it declares variables
    as `A` says. -/
inductive Gen.Steps (F : GenFault → Prop) (A : String → Prop) : {α : Type} → Gen α → Prop
  | pure {α : Type} (a : α) : Steps F A (pure a)
  | throw {α : Type} {f : GenFault} (h : F f) : Steps F A (throw f : Gen α)
  | lift {α : Type} {r : Except GenFault α} (h : ∀ f, r = .error f → F f) : Steps F A (liftM r)
  | bind {α β : Type} {g : Gen α} {k : α → Gen β} (hg : Steps F A g) (hk : ∀ a, Steps F A (k a)) :
      Steps F A (g >>= k)
  | freshLabel (name : String) : Steps F A (freshLabel name)
  | slot? (scope : Slots) (x : String) : Steps F A (slot? scope x)
  | declare {frame : Slots} {x : String} (h : frame.lookup x = none → A x) :
      Steps F A (CMa.declare frame x)

open Gen

attribute [local simp] Expr.reached Expr.parts

variable {F : GenFault → Prop} {A : String → Prop}

namespace CMa

/-! ## Uses of global variables -/

mutual

/-- The global variables that an expression reads and writes, in the order of its code, where the
    names `bound` belong to a procedure. -/
def globalUses (bound : List String) : Expr → List (String × Instr)
  | .unary _ _ a => globalUses bound a
  | .binary _ _ a b | .index _ a b | .whileDo _ a b | .loop _ a b | .doWhile _ b a =>
    globalUses bound a ++ globalUses bound b
  | .assign _ (.var _ x) a => globalUses bound a ++ if x ∈ bound then [] else [(x, .store)]
  | .var _ x => if x ∈ bound then [] else [(x, .load)]
  | .sequence _ parts => globalUsesOfAll bound parts
  | .ifThen _ c a b => globalUses bound c ++ globalUses bound a ++ globalUsesOfAny bound b
  | .proc _ params locals body => globalUses (params ++ locals) body
  | .call _ f args => globalUsesReversed bound args ++ globalUses bound f
  | _ => []

def globalUsesOfAll (bound : List String) : List Expr → List (String × Instr)
  | [] => []
  | a :: as => globalUses bound a ++ globalUsesOfAll bound as

def globalUsesReversed (bound : List String) : List Expr → List (String × Instr)
  | [] => []
  | a :: as => globalUsesReversed bound as ++ globalUses bound a

def globalUsesOfAny (bound : List String) : Option Expr → List (String × Instr)
  | none => []
  | some a => globalUses bound a

end

/-- The frame holds the variables `bound` of a procedure. -/
structure Frames (frame : Slots) (bound : List String) : Prop where
  mem : ∀ {x}, frame.lookup x = none ↔ x ∉ bound
  inner : ∀ {x slot}, frame.lookup x = some slot → slot.storage ≠ .global

namespace Frames

theorem nil : Frames [] [] := ⟨by simp, by simp⟩

theorem put {frame : Slots} {bound : List String} (h : Frames frame bound) (x : String)
    {slot : Slot} (hslot : slot.storage ≠ .global) : Frames (frame.put x slot) (bound ++ [x]) := by
  refine ⟨fun {y} => ?_, fun {y s} hy => ?_⟩
  · rw [Slots.lookup_put]
    split <;> simp_all [h.mem]
  · rw [Slots.lookup_put] at hy
    split at hy
    · cases hy
      exact hslot
    · exact h.inner hy

theorem params : ∀ (xs : List String) {a : Int} {frame : Slots} {bound : List String},
    Frames frame bound → Frames (paramSlots a xs frame) (bound ++ xs)
  | [], _, _, _, h => by simpa [paramSlots] using h
  | x :: xs, _, _, _, h => by simpa [paramSlots] using params xs (h.put x (by simp))

theorem locals : ∀ (xs : List String) {a : Int} {frame : Slots} {bound : List String},
    Frames frame bound → Frames (localSlots a xs frame) (bound ++ xs)
  | [], _, _, _, h => by simpa [localSlots] using h
  | x :: xs, _, _, _, h => by simpa [localSlots] using locals xs (h.put x (by simp))

theorem proc (xs ys : List String) : Frames (procFrame xs ys) (xs ++ ys) := by
  simpa [procFrame] using locals ys (params xs nil)

end Frames

/-- All variables that are written are as `A` says. -/
def Stores (A : String → Prop) (uses : List (String × Instr)) : Prop :=
  ∀ x, (x, .store) ∈ uses → A x

theorem Stores.left {us vs : List (String × Instr)} (h : Stores A (us ++ vs)) : Stores A us :=
  fun x hx => h x (List.mem_append_left _ hx)

theorem Stores.right {us vs : List (String × Instr)} (h : Stores A (us ++ vs)) : Stores A vs :=
  fun x hx => h x (List.mem_append_right _ hx)

open Stores

theorem unaryOp_declared (op : UnOp) : FailsAsDeclared (unaryOp op) := by
  cases op <;> first | exact .ok _ | exact .error (.inl rfl)

theorem binaryOp_declared (op : BinOp) : FailsAsDeclared (binaryOp op) := by
  cases op <;> first | exact .ok _ | exact .error (.inl rfl)

theorem address_steps (frame : Slots) (x : String) (h : F (.unknownVariable x)) :
    (address frame x).Steps F A := by
  refine (Steps.slot? frame x).bind fun r => ?_
  split
  · exact .pure _
  · exact .pure _
  · exact .throw h

mutual

/-- **Generators for the CMa are made of such steps.** -/
theorem value_steps {frame : Slots} {bound : List String} (hf : Frames frame bound) :
    ∀ e : Expr, e.Fails F → Stores A (globalUses bound e) → (value frame e).Steps F A
  | .number .., _, _ => .pure _
  | .unary _ op a, h, hA => (value_steps hf a (h.part (by simp)) hA).bind fun _ =>
    (Steps.lift (h.of_declared fun _ => unaryOp_declared op)).bind fun _ => .pure _
  | .binary _ op a b, h, hA => (value_steps hf a (h.part (by simp)) (left hA)).bind fun _ =>
    (value_steps hf b (h.part (by simp)) (right hA)).bind fun _ =>
    (Steps.lift (h.of_declared fun _ => binaryOp_declared op)).bind fun _ => .pure _
  | .index _ a b, h, hA => (value_steps hf a (h.part (by simp)) (left hA)).bind fun _ =>
    (value_steps hf b (h.part (by simp)) (right hA)).bind fun _ => .throw (h _ (.inl (.inl rfl)))
  | .assign _ (.var _ x) a, h, hA => by
    have hx : frame.lookup x = none → A x := by
      intro hx
      refine hA x (List.mem_append_right _ ?_)
      rw [if_neg (hf.mem.1 hx)]
      exact List.mem_singleton.2 rfl
    exact (Steps.declare hx).bind fun _ => (value_steps hf a (h.part (by simp)) (left hA)).bind
      fun _ => (address_steps frame x (h _ (.inl (.inl rfl)))).bind fun _ => .pure _
  | .var _ x, h, _ => (address_steps frame x (h _ (.inl (.inl rfl)))).bind fun _ => .pure _
  | .sequence _ parts, h, hA => valueOfLast_steps hf parts
    (fun hne => h _ (.inr fun hc => hc.own hne)) (fun a ha => h.part (by simpa using ha)) hA
  | .ifThen _ c a b, h, hA => (Steps.freshLabel _).bind fun _ => (Steps.freshLabel _).bind fun _ =>
    (Steps.freshLabel _).bind fun _ => (Steps.freshLabel _).bind fun _ =>
    (value_steps hf c (h.part (by simp)) (left (left hA))).bind fun _ =>
    (value_steps hf a (h.part (by simp)) (right (left hA))).bind fun _ =>
    (valueOrZero_steps hf b (fun a ha => h.part (by simp_all)) (right hA)).bind fun _ => .pure _
  | .whileDo _ c a, h, hA => (Steps.freshLabel _).bind fun _ => (Steps.freshLabel _).bind fun _ =>
    (value_steps hf c (h.part (by simp)) (left hA)).bind fun _ =>
    (value_steps hf a (h.part (by simp)) (right hA)).bind fun _ => .pure _
  | .loop _ n a, h, hA => (Steps.freshLabel _).bind fun _ => (Steps.freshLabel _).bind fun _ =>
    (value_steps hf n (h.part (by simp)) (left hA)).bind fun _ =>
    (value_steps hf a (h.part (by simp)) (right hA)).bind fun _ => .pure _
  | .doWhile _ c a, h, hA => (Steps.freshLabel _).bind fun _ => (Steps.freshLabel _).bind fun _ =>
    (value_steps hf a (h.part (by simp)) (left hA)).bind fun _ =>
    (value_steps hf c (h.part (by simp)) (right hA)).bind fun _ => .pure _
  | .proc _ params locals body, h, hA => (Steps.freshLabel _).bind fun _ =>
    (Steps.freshLabel _).bind fun _ =>
    (value_steps (.proc params locals) body (h.part (by simp)) hA).bind fun _ => .pure _
  | .call _ f args, h, hA =>
    (valuesReversed_steps hf args (fun a ha => h.part (by simp [ha])) (left hA)).bind fun _ =>
    (value_steps hf f (h.part (by simp)) (right hA)).bind fun _ => .pure _
  | .bool .., h, _ | .string .., h, _ | .char .., h, _ | .array .., h, _ | .dict .., h, _
  | .assign _ (.bare _) _, h, _ | .lock .., h, _ | .letIn .., h, _ | .lambda .., h, _
  | .struct .., h, _ | .member .., h, _ | .memberAssign .., h, _ | .this _, h, _
  | .importFile .., h, _ | .trap _, h, _ => .throw (h _ (.inl (.inr rfl)))

theorem valueOfLast_steps {frame : Slots} {bound : List String} (hf : Frames frame bound) :
    ∀ es : List Expr, (es = [] → F .noParts) → (∀ e ∈ es, e.Fails F) →
    Stores A (globalUsesOfAll bound es) → (valueOfLast frame es).Steps F A
  | [], hne, _, _ => .throw (hne rfl)
  | [a], _, h, hA => value_steps hf a (h a (by simp)) (left hA)
  | a :: b :: es, _, h, hA => (value_steps hf a (h a (by simp)) (left hA)).bind fun _ =>
    (valueOfLast_steps hf (b :: es) nofun (fun e he => h e (.tail a he)) (right hA)).bind
      fun _ => .pure _

theorem valuesReversed_steps {frame : Slots} {bound : List String} (hf : Frames frame bound) :
    ∀ es : List Expr, (∀ e ∈ es, e.Fails F) → Stores A (globalUsesReversed bound es) →
    (valuesReversed frame es).Steps F A
  | [], _, _ => .pure _
  | a :: es, h, hA =>
    (valuesReversed_steps hf es (fun e he => h e (.tail a he)) (left hA)).bind fun _ =>
    (value_steps hf a (h a (by simp)) (right hA)).bind fun _ => .pure _

theorem valueOrZero_steps {frame : Slots} {bound : List String} (hf : Frames frame bound) :
    ∀ e : Option Expr, (∀ a ∈ e, a.Fails F) → Stores A (globalUsesOfAny bound e) →
    (valueOrZero frame e).Steps F A
  | none, _, _ => .pure _
  | some a, h, hA => value_steps hf a (h a rfl) hA

end

end CMa

namespace MaMa

theorem targetVars_declared (t : Target) : FailsAsDeclared (targetVars t) := by
  cases t with
  | var _ _ => exact .ok _
  | bare _ => exact .error (.inr rfl)

theorem bindingNames_declared : ∀ bs : List (Binding Expr), (∀ b ∈ bs, b.target.IsVar) →
    FailsAsDeclared (bindingNames bs)
  | [], _ => .ok _
  | ⟨_, .var _ _, _⟩ :: bs, h =>
    (bindingNames_declared bs fun b hb => h b (.tail _ hb)).bind fun _ _ => .ok _
  | ⟨_, .bare _, _⟩ :: _, h => (h _ (.head _)).elim

mutual

theorem freeVars_declared : ∀ e : Expr, e.Complete → FailsAsDeclared (freeVars e)
  | .number .., _ => .ok _
  | .unary _ _ a, h => freeVars_declared a (h.part (by simp))
  | .binary _ _ a b, h | .index _ a b, h =>
    (freeVars_declared a (h.part (by simp))).bind fun _ _ =>
      (freeVars_declared b (h.part (by simp))).bind fun _ _ => .ok _
  | .assign _ (.var _ x) a, h => (targetVars_declared _).bind fun _ _ =>
    (freeVars_declared a (h.part (by simp))).bind fun _ _ => .ok _
  | .assign _ (.bare x) a, h => .error (.inr rfl)
  | .var .., _ => .ok _
  | .ifThen _ c a b, h => (freeVars_declared c (h.part (by simp))).bind fun _ _ =>
    (freeVars_declared a (h.part (by simp))).bind fun _ _ =>
    (freeVarsOption_declared b fun a ha => h.part (by simp_all)).bind fun _ _ => .ok _
  | .letIn _ bs a, h => (freeVars_declared a (h.part (by simp))).bind fun _ _ =>
    (bindingNames_declared bs h.own).bind fun _ _ => .ok _
  | .lambda _ _ a _, h => (freeVars_declared a (h.part (by simp))).bind fun _ _ => .ok _
  | .call _ f args, h => (freeVars_declared f (h.part (by simp))).bind fun _ _ =>
    (freeVarsList_declared args fun a ha => h.part (by simp [ha])).bind fun _ _ => .ok _
  | .bool .., _ | .string .., _ | .char .., _ | .array .., _ | .dict .., _ | .lock .., _
  | .sequence .., _ | .loop .., _ | .whileDo .., _ | .doWhile .., _ | .proc .., _ | .struct .., _
  | .member .., _ | .memberAssign .., _ | .this _, _ | .importFile .., _ | .trap _, _ =>
    .error (.inr rfl)

theorem freeVarsList_declared : ∀ es : List Expr, Expr.AllComplete es →
    FailsAsDeclared (freeVarsList es)
  | [], _ => .ok _
  | a :: es, h => (freeVars_declared a (h a (by simp))).bind fun _ _ =>
    (freeVarsList_declared es fun e he => h e (.tail a he)).bind fun _ _ => .ok _

theorem freeVarsOption_declared : ∀ e : Option Expr, (∀ a ∈ e, a.Complete) →
    FailsAsDeclared (freeVarsOption e)
  | none, _ => .error (.inr rfl)
  | some a, h => freeVars_declared a (h a rfl)

end

theorem variable_steps (scope : Slots) (kp : Int) (x : String) (h : F (.unknownVariable x)) :
    (variable_ scope kp x).Steps F A := by
  refine (Steps.slot? scope x).bind fun r => ?_
  split
  · exact .pure _
  · exact .pure _
  · exact .throw h

theorem variableCodes_steps (scope : Slots) (h : ∀ x, F (.unknownVariable x)) :
    ∀ (kp : Int) (xs : List String), (variableCodes scope kp xs).Steps F A
  | _, [] => .pure _
  | kp, x :: xs => (variable_steps scope kp x (h x)).bind fun _ =>
    (variableCodes_steps scope h (kp + 1) xs).bind fun _ => .pure _

variable (order : CaptureOrder)

mutual

/-- **Generators for the MaMa are made of such steps.** -/
theorem codeBy_steps : ∀ (want : Want) (scope : Slots) (kp : Int) (e : Expr), e.Fails F →
    (codeBy order want scope kp e).Steps F A
  | _, _, _, .number .., _ => .pure _
  | _, scope, kp, .unary _ op a, h =>
    (codeBy_steps .basic scope kp a (h.part (by simp))).bind fun _ =>
    (Steps.lift (h.of_declared fun _ => CMa.unaryOp_declared op)).bind fun _ => .pure _
  | _, scope, kp, .binary _ op a b, h =>
    (codeBy_steps .basic scope kp a (h.part (by simp))).bind fun _ =>
    (codeBy_steps .basic scope (kp + 1) b (h.part (by simp))).bind fun _ =>
    (Steps.lift (h.of_declared fun _ => CMa.binaryOp_declared op)).bind fun _ => .pure _
  | _, scope, kp, .index _ a b, h =>
    (codeBy_steps .basic scope kp a (h.part (by simp))).bind fun _ =>
    (codeBy_steps .basic scope (kp + 1) b (h.part (by simp))).bind fun _ =>
    .throw (h _ (.inl (.inl rfl)))
  | _, scope, kp, .var _ x, h => (variable_steps scope kp x (h _ (.inl (.inl rfl)))).bind fun _ =>
    .pure _
  | want, scope, kp, .ifThen _ c a b, h => (Steps.freshLabel _).bind fun _ =>
    (Steps.freshLabel _).bind fun _ => (Steps.freshLabel _).bind fun _ =>
    (Steps.freshLabel _).bind fun _ =>
    (codeBy_steps .basic scope kp c (h.part (by simp))).bind fun _ =>
    (codeBy_steps want scope kp a (h.part (by simp))).bind fun _ =>
    (codeOrZeroBy_steps want scope kp b fun a ha => h.part (by simp_all)).bind fun _ => .pure _
  | want, _, _, .letIn _ bs a, h =>
    (Steps.lift (h.of_declared fun hc => bindingNames_declared bs hc.own)).bind fun _ =>
    (initialiseBy_steps _ _ bs fun b hb =>
      h.part (by simpa using .inl ⟨b, hb, rfl⟩)).bind fun _ =>
    (codeBy_steps want _ _ a (h.part (by simp))).bind fun _ => .pure _
  | _, scope, kp, .call _ f args, h => (Steps.freshLabel _).bind fun _ =>
    (argumentsBy_steps scope (kp + 3) args fun a ha => h.part (by simp [ha])).bind fun _ =>
    (codeBy_steps .reference scope _ f (h.part (by simp))).bind fun _ => .pure _
  | .basic, _, _, .lambda .., h => .throw (h _ (.inl (.inr rfl)))
  | .reference, scope, kp, .lambda _ _ a _, h => (Steps.freshLabel _).bind fun _ =>
    (Steps.freshLabel _).bind fun _ =>
    (Steps.lift (h.of_declared (freeVars_declared _))).bind fun _ =>
    (variableCodes_steps scope (fun _ => h _ (.inl (.inl rfl))) kp _).bind fun _ =>
    (codeBy_steps .reference _ 0 a (h.part (by simp))).bind fun _ => .pure _
  | _, _, _, .bool .., h | _, _, _, .string .., h | _, _, _, .char .., h | _, _, _, .array .., h
  | _, _, _, .dict .., h | _, _, _, .assign .., h | _, _, _, .lock .., h
  | _, _, _, .sequence .., h | _, _, _, .loop .., h | _, _, _, .whileDo .., h
  | _, _, _, .doWhile .., h | _, _, _, .proc .., h | _, _, _, .struct .., h
  | _, _, _, .member .., h | _, _, _, .memberAssign .., h | _, _, _, .this _, h
  | _, _, _, .importFile .., h | _, _, _, .trap _, h => .throw (h _ (.inl (.inr rfl)))

theorem argumentsBy_steps : ∀ (scope : Slots) (kp : Int) (es : List Expr), (∀ e ∈ es, e.Fails F) →
    (argumentsBy order scope kp es).Steps F A
  | _, _, [], _ => .pure _
  | scope, kp, a :: es, h =>
    (argumentsBy_steps scope kp es fun e he => h e (.tail a he)).bind fun _ =>
    (codeBy_steps .reference scope _ a (h a (by simp))).bind fun _ => .pure _

theorem codeOrZeroBy_steps : ∀ (want : Want) (scope : Slots) (kp : Int) (e : Option Expr),
    (∀ a ∈ e, a.Fails F) → (codeOrZeroBy order want scope kp e).Steps F A
  | _, _, _, none, _ => .pure _
  | want, scope, kp, some a, h => codeBy_steps want scope kp a (h a rfl)

theorem initialiseBy_steps : ∀ (scope : Slots) (kp : Int) (bs : List (Binding Expr)),
    (∀ b ∈ bs, b.value.Fails F) → (initialiseBy order scope kp bs).Steps F A
  | _, _, [], _ => .pure _
  | scope, kp, ⟨_, _, a⟩ :: bs, h =>
    (codeBy_steps .reference scope kp a (h _ (.head _))).bind fun _ =>
    (initialiseBy_steps scope kp bs fun b hb => h b (.tail _ hb)).bind fun _ => .pure _

end

end MaMa

end ExprLang
