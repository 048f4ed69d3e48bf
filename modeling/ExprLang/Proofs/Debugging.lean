/-
  Debugging changes nothing but the output, except for dumps that cannot be written.

  * `stop_endsAs`: a stop shows what it is asked for and leaves the program alone;
  * `eval_transparent`: so does every stop in an evaluation;
  * `debugging_is_transparent`: an evaluation under the debugger ends as without it, unless a dump
    meets an integer with too many digits (`dump_ends_evaluation`).
-/
import ExprLang.Session
import ExprLang.Proofs.Transparency

namespace ExprLang

open Run ExceptT

/-! ## Dumps -/

/-- Variables are shown one after the other, up to one that holds an integer with too many
    digits. -/
theorem exec_showVars (vars : Bindings Value) (w : World) :
    (showVars vars).exec w = (.ok (), w.wrote (String.join (vars.map (varLine w.scopes)))) ∨
      ∃ before x v after, vars = before ++ (x, v) :: after ∧ v.overlongAlone w.scopes = true ∧
        (showVars vars).exec w = (.error .overlongInteger,
          w.wrote (String.join (before.map (varLine w.scopes)))) := by
  induction vars generalizing w with
  | nil => exact .inl (by simp [showVars, World.wrote])
  | cons b vars ih =>
    obtain ⟨x, v⟩ := b
    have hstep : (showVars ((x, v) :: vars)).exec w =
        if v.overlongAlone w.scopes then (.error .overlongInteger, w)
        else (showVars vars).exec (w.wrote (varLine w.scopes (x, v))) := by
      rw [showVars, exec_bind, exec_textOf]
      by_cases hlong : v.overlongAlone w.scopes = true
      · simp [hlong]
      · simp [hlong, exec_bind, varLine]
    by_cases hlong : v.overlongAlone w.scopes = true
    · exact .inr ⟨[], x, v, vars, rfl, hlong, by simp [hstep, hlong, World.wrote]⟩
    · rw [hstep, if_neg hlong]
      rcases ih (w.wrote (varLine w.scopes (x, v))) with h | ⟨before, y, u, after, rfl, hu, h⟩
      · exact .inl (by simp [h])
      · exact .inr ⟨(x, v) :: before, y, u, after, rfl, hu, by simp [h]⟩

/-- A dump shows all variables, or those before one that holds an integer with too many digits. -/
theorem exec_dump (scope : Nat) (w : World) :
    (dump scope).exec w = (.ok (), w.wrote (dumpText w.scopes (w.scopes.visible scope))) ∨
      ∃ before x v after, w.scopes.visible scope = before ++ (x, v) :: after ∧
        v.overlongAlone w.scopes = true ∧
        (dump scope).exec w = (.error .overlongInteger, w.wrote (dumpText w.scopes before)) := by
  have hstep : (dump scope).exec w =
      (showVars (w.scopes.visible scope)).exec (w.wrote "========== VAR DUMP ==========\n") := by
    rw [dump, exec_bind]; rfl
  rw [hstep]
  rcases exec_showVars (w.scopes.visible scope) (w.wrote "========== VAR DUMP ==========\n") with
    h | ⟨before, x, v, after, hvars, hlong, h⟩
  · exact .inl (by rw [h, World.wrote_wrote]; rfl)
  · exact .inr ⟨before, x, v, after, hvars, hlong, by rw [h, World.wrote_wrote]; rfl⟩

/-! ## Stops -/

section
variable {w v : World} {p : Pos} {scope n : Nat} {eval : Expr → Run Value}

variable {line : String} {rest : List String}

/-- The world after the debugger has asked for a line. -/
def World.answered (w : World) (p : Pos) (rest : List String) : World :=
  { w with pages := (w.page ++ p.prompt) :: w.pages, page := "", input := rest }

theorem Alike.answered (h : Alike w v) (hin : w.input = line :: rest) :
    Alike (w.answered p rest) v :=
  ⟨h.1, h.2, h.3, h.4, h.5, h.6, fun l hl => h.plain l (hin ▸ .tail line hl)⟩

theorem Alike.debugger (h : Alike w v) (d : Debugger) (hd : d.watches = []) :
    Alike { w with debugger := d } v :=
  ⟨h.1, h.2, h.3, h.4, h.5, hd, h.7⟩

theorem Alike.wrote (h : Alike w v) (s : String) : Alike (w.wrote s) v :=
  ⟨h.1, h.2, h.3, h.4, h.5, h.6, h.7⟩

/-- Without watches, a round of a stop asks for a line. -/
theorem exec_obey_nil (hw : w.debugger.watches = []) (hin : w.input = []) :
    (obey eval (some p) scope (n + 1)).exec w = (.error .endOfInput, w.answered p []) := by
  rw [obey, liftM_eq, exec_get_bind, hw, List.forIn_nil, pure_bind]
  simp only [liftM_eq, exec_bind, exec_readLine_nil _ hin]
  simp [World.answered, hin]

/-- The commands that go on end a stop; those that look show the variables first. -/
theorem exec_obey_cons (hw : w.debugger.watches = []) (hin : w.input = line :: rest) :
    (obey eval (some p) scope (n + 1)).exec w =
      match DebugCommand.ofLine line with
      | .step => (.ok (), w.answered p rest)
      | .go => (modifyDebugger fun d => { d with stepping := false }).exec (w.answered p rest)
      | .vars => (dump scope >>= fun _ => obey eval (some p) scope n).exec (w.answered p rest)
      | .watch text => (do
          let e ← parsed text
          modifyDebugger fun d => { d with watches := d.watches.set text e }
          obey eval (some p) scope n : Run Unit).exec (w.answered p rest)
      | .eval text => (do
          let v ← evalIfAny eval (← parsed text)
          writeLine (← textOf v)
          obey eval (some p) scope n : Run Unit).exec (w.answered p rest)
      | .other => (obey eval (some p) scope n).exec (w.answered p rest) := by
  rw [obey, liftM_eq, exec_get_bind, hw, List.forIn_nil, pure_bind]
  simp only [liftM_eq, exec_bind (readLine p.prompt), exec_readLine_cons _ hin]
  cases DebugCommand.ofLine line <;> rfl

theorem Shows.went (hin : w.input = line :: rest) (hl : line ∈ goLines) (d : Debugger) :
    Shows [.went p line hl] w v { w.answered p rest with debugger := d } v :=
  ⟨hin, rfl, (Output.write_nil _).symm⟩

theorem Shows.looked (hin : w.input = line :: rest) (hl : line ∈ lookLines) :
    Shows [.looked p line hl w.scopes scope] w v
      ((w.answered p rest).wrote (dumpText w.scopes (w.scopes.visible scope))) v :=
  ⟨hin, rfl, (Output.write_nil _).symm⟩

theorem ofLine_of_go (h : line ∈ goLines) :
    DebugCommand.ofLine line = .step ∨ DebugCommand.ofLine line = .go := by
  revert line
  decide

theorem ofLine_of_look (h : line ∈ lookLines) : DebugCommand.ofLine line = .vars := by
  revert line
  decide

/-- The commands of a stop leave the program alone. -/
theorem obey_endsAs (n : Nat) (h : Alike w v) (hstopped : w.debugger.stopped = true) :
    EndsAs w v ((obey eval (some p) scope n).exec w) (.ok (), v) := by
  induction n generalizing w with
  | zero => exact .ended
  | succ n ih =>
    rcases hin : w.input with _ | ⟨line, rest⟩
    · rw [exec_obey_nil h.unwatched hin]
      exact .ended
    rw [exec_obey_cons h.unwatched hin]
    have ha : Alike (w.answered p rest) v := h.answered hin
    rcases List.mem_append.1 (h.plain line (hin ▸ .head rest)) with hl | hl
    · rcases ofLine_of_go hl with hgo | hgo <;> rw [hgo]
      · exact .same _ (.went hin hl w.debugger) ha
      · exact .same _ (.went hin hl _) (ha.debugger _ h.unwatched)
    · rw [ofLine_of_look hl]
      dsimp only
      rw [exec_bind]
      rcases exec_dump scope (w.answered p rest) with hd | ⟨before, x, y, after, hvars, hlong, hd⟩
      · -- The dump is shown, and the stop goes on.
        rw [hd]
        have hshows : Shows [.looked p line hl w.scopes scope] w v _ v := .looked hin hl
        exact (ih (ha.wrote _) hstopped).after hshows
      · rw [hd]
        exact .unshown ⟨[], p, line, scope, before, after, x, y, hl, hin, hvars, hlong, rfl,
          hstopped⟩

/-- A stop leaves the program alone. -/
theorem stop_endsAs (h : Alike w v) :
    EndsAs w v ((stop eval (some p) scope).exec w) ((pure () : Run Unit).exec v) := by
  let w₁ : World := { w with debugger := { w.debugger with stepping := true, stopped := true } }
  let leave : Run Unit := modifyDebugger fun d => { d with stopped := false }
  have hrun : (stop eval (some p) scope).exec w =
      (obey eval (some p) scope (w.input.length + 1) >>= fun _ => leave).exec w₁ := rfl
  have hobey : EndsAs w₁ v ((obey eval (some p) scope (w.input.length + 1)).exec w₁)
      ((pure () : Run Unit).exec v) := obey_endsAs _ (h.debugger _ h.unwatched) rfl
  have hleave : ∀ (_ : Unit) (w' v' : World), Alike w' v' →
      EndsAs w' v' (leave.exec w') ((pure () : Run Unit).exec v') := fun _ w' v' h' =>
    .same [] (.nil rfl rfl rfl) (h'.debugger _ h'.unwatched)
  have hstart : Shows [] w v w₁ v := .nil rfl rfl rfl
  rw [hrun]
  show EndsAs w v _ ((pure () >>= fun _ => pure () : Run Unit).exec v)
  exact (hobey.bind hleave).after hstart

end

/-! ## Evaluation -/

theorem eval_transparent (room : Nat) (e : Expr) (scope : Nat) :
    Transparent (eval room e scope) := by
  rw [eval_eq_nested]
  refine nested_induction (P := fun ev : Evaluator Run => ∀ e scope, Transparent (ev e scope))
    (fun _ _ => .throw _) ?_ room e scope
  intro room go hgo e scope w v h
  have hnode : Transparent (evalNode room go e scope) := evalNode_transparent hgo room e scope
  refine EndsAs.bind ?_ fun _ => hnode
  have hquiet : v.debugger.stopsAt (some e) = false := by simp [Debugger.stopsAt, h.quiet]
  rw [exec_get_bind, exec_get_bind, hquiet]
  by_cases hstops : w.debugger.stopsAt (some e) = true
  · rw [if_pos hstops]
    exact stop_endsAs h
  · rw [if_neg hstops]
    exact .same [] (.nil rfl rfl rfl) h

/-- The same world with a debugger that never stops. -/
def World.undisturbed (w : World) : World :=
  { w with debugger := { w.debugger with stopped := true } }

theorem Alike.undisturbed {w : World} (hw : w.debugger.watches = [])
    (hin : ∀ line ∈ w.input, line ∈ goLines ++ lookLines) : Alike w w.undisturbed :=
  ⟨rfl, rfl, rfl, rfl, rfl, hw, hin⟩

/-- **Debugging is transparent.**  With commands that only go on or look, and enough of them, an
evaluation ends with the same value or fault as under a debugger that never stops, leaves the same
world and writes the same text between prompts and dumps.  The one exception is a dump that meets an
integer with too many digits, which ends the evaluation. -/
theorem debugging_is_transparent (depth : Nat) (e : Expr) (scope : Nat) (w : World)
    (hw : w.debugger.watches = []) (hin : ∀ line ∈ w.input, line ∈ goLines ++ lookLines)
    (hend : ((eval depth e scope).exec w).1 ≠ .error .endOfInput) :
    let debugged := (eval depth e scope).exec w
    let quiet := (eval depth e scope).exec w.undisturbed
    (debugged.1 = quiet.1 ∧ Alike debugged.2 quiet.2 ∧
        ∃ events, Shows events w w.undisturbed debugged.2 quiet.2) ∨
      (debugged.1 = .error .overlongInteger ∧ Unshown w debugged.2) := by
  intro debugged quiet
  have h : EndsAs w w.undisturbed debugged quiet :=
    eval_transparent depth e scope w w.undisturbed (.undisturbed hw hin)
  have hend : debugged.1 ≠ .error .endOfInput := hend
  clear_value debugged quiet
  cases h with
  | same events hs ha => exact .inl ⟨rfl, ha, events, hs⟩
  | ended => exact absurd rfl hend
  | unshown hu => exact .inr ⟨rfl, hu⟩

/-- `{trap; print("hi")}`, with a look at the variables and two steps. -/
theorem debugging_is_transparent_print :
    let p : Pos := ⟨[], 1, 1⟩
    let e := Expr.sequence p [.trap p, .call p (.var p "print") [.string p "hi"]]
    let w := Session.start [] ["v", "s", "c"]
    ((eval 5 e Session.scope).exec w).1.isOk = true ∧
      ((eval 5 e Session.scope).exec w).1 = ((eval 5 e Session.scope).exec w.undisturbed).1 ∧
      ((eval 5 e Session.scope).exec w.undisturbed).2.page = "hi\n" := by
  intro p e w
  have hok : ((eval 5 e Session.scope).exec w).1.isOk = true := by decide +kernel
  have hend : ((eval 5 e Session.scope).exec w).1 ≠ .error .endOfInput := by
    intro h
    rw [h] at hok
    cases hok
  refine ⟨hok, ?_, by decide +kernel⟩
  rcases debugging_is_transparent 5 e Session.scope w rfl (by decide) hend with h | h
  · exact h.1
  · rw [h.1] at hok
    cases hok

/-- `local x = true + true in {x = x * x; …; trap; true}`: after fourteen squarings the integer has
    4933 digits. -/
def longInteger : Expr :=
  let p : Pos := ⟨[], 1, 1⟩
  let square := Expr.assign p (.var p "x") (.binary p .times (.var p "x") (.var p "x"))
  .letIn p [⟨p, .var p "x", .binary p .plus (.bool p true) (.bool p true)⟩]
    (.sequence p (List.replicate 14 square ++ [.trap p, .bool p true]))

/-- A look at the variables can end an evaluation that would give a value. -/
theorem dump_ends_evaluation :
    let w := Session.start [] ["v", "c"]
    ((eval 8 longInteger Session.scope).exec w).1.isOk = false ∧
      ((eval 8 longInteger Session.scope).exec w.undisturbed).1.isOk = true := by
  decide +kernel

end ExprLang
