/-
  What evaluations do.

  Every effect of a program has an equation for `exec`, so that proofs follow a computation without
  unfolding it.  Calls are nested by `nested`: what holds of a call wherever it holds of all calls in
  it, holds of every call (`nested_induction`, and `nested_related` for calls of two kinds).
-/
import ExprLang.Eval
import ExprLang.Proofs.Computations
import Mathlib.Data.List.Basic

namespace ExprLang

/-- The world after a text was written. -/
def World.wrote (w : World) (s : String) : World := { w with page := w.page ++ s }

@[simp] theorem World.scopes_wrote (w : World) (s : String) : (w.wrote s).scopes = w.scopes := rfl

@[simp] theorem World.wrote_wrote (w : World) (s t : String) :
    (w.wrote s).wrote t = w.wrote (s ++ t) := by
  simp [wrote, String.append_assoc]

namespace Run

variable {α : Type}

open ExceptT

@[simp] theorem liftM_eq (m : Run α) : (liftM m : Run α) = m := rfl

@[simp] theorem exec_ofExcept (r : Except Fault α) (w : World) : exec (ofExcept r) w = (r, w) := by
  cases r <;> rfl

@[simp] theorem exec_modifyDebugger (change : Debugger → Debugger) (w : World) :
    exec (modifyDebugger change) w = (.ok (), { w with debugger := change w.debugger }) := rfl

@[simp] theorem exec_write (s : String) (w : World) :
    exec (write s) w = (.ok (), w.wrote s) := rfl

@[simp] theorem exec_writeLine (s : String) (w : World) :
    exec (writeLine s) w = (.ok (), w.wrote (s ++ "\n")) := rfl

theorem exec_textOf (v : Value) (w : World) : exec (textOf v) w =
    (if v.overlongAlone w.scopes then .error .overlongInteger else .ok (v.alone w.scopes), w) := by
  show exec (if _ then _ else _) w = _
  split <;> rfl

theorem exec_readLine_nil {w : World} (prompt : String) (h : w.input = []) :
    exec (readLine prompt) w =
      (.error .endOfInput, { w with pages := (w.page ++ prompt) :: w.pages, page := "" }) := by
  simp [readLine, h]

theorem exec_readLine_cons {w : World} {line : String} {rest : List String} (prompt : String)
    (h : w.input = line :: rest) :
    exec (readLine prompt) w = (.ok line,
      { w with pages := (w.page ++ prompt) :: w.pages, page := "", input := rest }) := by
  simp only [readLine, exec_modify_bind, exec_get_bind, h]
  rfl

end Run

/-! ## Nested calls -/

section
variable {X Y : Type} {tooDeep : X} {node : Nat → (Nat → X) → X}

theorem nestedAfter_eq (room used : Nat) :
    nestedAfter tooDeep node room used = nested tooDeep node (room - used) := by
  induction room generalizing used with
  | zero => rw [Nat.zero_sub]; rfl
  | succ room ih =>
    cases used with
    | zero => rfl
    | succ used => rw [nestedAfter, ih, Nat.add_sub_add_right]

theorem nested_succ (room : Nat) :
    nested tooDeep node (room + 1) = node room fun used => nested tooDeep node (room - used) :=
  congrArg (node room) (funext fun used => nestedAfter_eq room used)

/-- Nested calls of two kinds are related if a call is wherever all calls in it are. -/
theorem nested_related {R : X → Y → Prop} {tooDeep' : Y} {node' : Nat → (Nat → Y) → Y}
    (hdeep : R tooDeep tooDeep')
    (hnode : ∀ room go go', (∀ used, R (go used) (go' used)) → R (node room go) (node' room go'))
    (room : Nat) : R (nested tooDeep node room) (nested tooDeep' node' room) := by
  suffices h : ∀ room used, R (nestedAfter tooDeep node room used)
    (nestedAfter tooDeep' node' room used) from h room 0
  intro room
  induction room with
  | zero => exact fun _ => hdeep
  | succ room ih =>
    intro used
    cases used with
    | zero => exact hnode room _ _ ih
    | succ used => exact ih used

/-- What holds of a call wherever it holds of all calls in it, holds of every call. -/
theorem nested_induction {P : X → Prop} (hdeep : P tooDeep)
    (hnode : ∀ room go, (∀ used, P (go used)) → P (node room go)) (room : Nat) :
    P (nested tooDeep node room) := by
  let R : X → X → Prop := fun x _ => P x
  show R (nested tooDeep node room) (nested tooDeep node room)
  exact nested_related hdeep (fun room go _ => hnode room go) room

end

/-! ## Evaluation -/

theorem eval_eq_nested : eval = nested (fun _ _ => throw .tooDeep) fun room go e scope => (do
      let w ← Run.world
      if w.debugger.stopsAt (some e) then Run.stop (go 1 · scope) (some e.pos) scope) >>=
        fun _ => evalNode room go e scope := by
  unfold eval
  congr
  funext room go e scope
  rw [bind_assoc]
  refine bind_congr fun w => ?_
  split
  · rfl
  · rfl

theorem eval_succ (room : Nat) (e : Expr) (scope : Nat) :
    eval (room + 1) e scope = (do
      let w ← Run.world
      if w.debugger.stopsAt (some e) then
        Run.stop (eval (room - 1) · scope) (some e.pos) scope) >>=
        fun _ => evalNode room (fun used => eval (room - used)) e scope := by
  rw [eval_eq_nested, nested_succ]

theorem evalProgram_none (scope : Nat) :
    evalProgram none scope = (do
      let w ← Run.world
      if w.debugger.stopsAt none then Run.stop (eval (depthLimit - 2) · scope) none scope) >>=
        fun _ => throw .nothing := by
  rw [evalProgram, bind_assoc]
  refine bind_congr fun w => ?_
  split
  · rfl
  · rfl

end ExprLang
