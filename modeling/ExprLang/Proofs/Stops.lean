/-
  The debugger after faults.

  A stop sets a flag of the debugger and clears it when it ends well; while it is set, there are no
  stops.  A fault that is raised in a stop leaves it set.

  * `Sited` is a monad with the effects of a `Run` whose faults say where they were raised: by the
    program, or in a stop.  `evalSited` evaluates in it as `eval` does in `Run`;
  * `Tells x y`: the computation `x` ends as `y` does, and the flag is what it was before, unless a
    fault was raised in a stop: then it was clear and is set now;
  * `Session.Prompts`: the worlds in which a session asks for its next line;
  * `stopped_iff_stop_failed`: at a prompt the flag is set exactly if some line before ended with a
    fault in a stop, so one failed command disables the debugger for good.
-/
import ExprLang.Command
import ExprLang.Proofs.OwnEffects

namespace ExprLang

/-! ## Where faults are raised -/

/-- Where a fault was raised. -/
inductive Site where
  | program
  | stop
deriving DecidableEq

/-- A computation whose faults say where they were raised. -/
abbrev Sited := ExceptT (Site × Fault) (StateM World)

namespace Sited

/-- A computation whose faults are all raised at one site. -/
def raisedAt {α : Type} (site : Site) (x : Run α) : Sited α :=
  ExceptT.mk fun w => ((x.exec w).1.mapError (site, ·), (x.exec w).2)

instance : MonadLift Run Sited := ⟨raisedAt .program⟩

end Sited

def stopIf (e : Option Expr) (stop : Run Unit) : Sited Unit := do
  if (← Run.world).debugger.stopsAt e then Sited.raisedAt .stop stop

/-- Evaluates an expression as `eval` does, and says where a fault was raised. -/
def evalSited : Nat → Evaluator Sited :=
  nested (fun _ _ => (throw .tooDeep : Run Value)) fun room go e scope => do
    stopIf (some e) (Run.stop (eval (room - 1) · scope) (some e.pos) scope)
    evalNode room go e scope

/-- Evaluates a program as `evalProgram` does, and says where a fault was raised. -/
def evalProgramSited (e : Option Expr) (scope : Nat) : Sited Value :=
  match e with
  | some e => evalSited depthLimit e scope
  | none => do
    stopIf none (Run.stop (eval (depthLimit - 2) · scope) none scope)
    (throw .nothing : Run Value)

/-! ## The flag -/

/-- The computation leaves the flag alone. -/
def KeepsFlag {α : Type} (m : Run α) : Prop :=
  ∀ w, (m.exec w).2.debugger.stopped = w.debugger.stopped

theorem Own.keepsFlag {α : Type} {m : Run α} (hm : Own m) : KeepsFlag m := by
  intro w
  obtain ⟨r, c, hc⟩ := hm w
  rw [hc w (.refl w)]
  rfl

theorem readLine_keepsFlag (prompt : String) : KeepsFlag (Run.readLine prompt) := by
  intro w
  cases hin : w.input with
  | nil => rw [Run.exec_readLine_nil prompt hin]
  | cons line rest => rw [Run.exec_readLine_cons prompt hin]

/-- How a computation and one that says where its faults are raised end, from the world `w`. -/
inductive Told {α : Type} (w : World) :
    Except (Site × Fault) α × World → Except Fault α × World → Prop
  | value {a : α} {u : World} (kept : u.debugger.stopped = w.debugger.stopped) :
    Told w (.ok a, u) (.ok a, u)
  | program {f : Fault} {u : World} (kept : u.debugger.stopped = w.debugger.stopped) :
    Told w (.error (.program, f), u) (.error f, u)
  | stop {f : Fault} {u : World} (clear : w.debugger.stopped = false)
    (set : u.debugger.stopped = true) : Told w (.error (.stop, f), u) (.error f, u)

/-- The computations end in the same way, and the flag is set by faults in stops only. -/
def Tells {α : Type} (x : Sited α) (y : Run α) : Prop := ∀ w, Told w (x.exec w) (y.exec w)

namespace Tells

variable {α β : Type} {x : Sited α} {y : Run α}

theorem lift (hy : KeepsFlag y) : Tells (liftM y) (liftM y) := by
  intro w
  have hkept := hy w
  show Told w ((y.exec w).1.mapError (.program, ·), (y.exec w).2) (y.exec w)
  generalize y.exec w = q at hkept
  rcases q with ⟨f | a, u⟩
  · exact .program hkept
  · exact .value hkept

theorem pure (a : α) : Tells (pure a) (pure a) := fun _ => .value rfl

theorem bind {k : α → Sited β} {l : α → Run β} (hx : Tells x y) (hk : ∀ a, Tells (k a) (l a)) :
    Tells (x >>= k) (y >>= l) := by
  intro w
  have hxw := hx w
  rw [ExceptT.exec_bind, ExceptT.exec_bind]
  generalize x.exec w = r at hxw
  generalize y.exec w = q at hxw
  cases hxw with
  | program kept => exact .program kept
  | stop clear set => exact .stop clear set
  | @value a u kept =>
    show Told w ((k a).exec u) ((l a).exec u)
    have hka := hk a u
    generalize (k a).exec u = r at hka
    generalize (l a).exec u = q at hka
    cases hka with
    | value kept' => exact .value (kept'.trans kept)
    | program kept' => exact .program (kept'.trans kept)
    | stop clear set => exact .stop (kept ▸ clear) set

theorem congruence : Congruence (m := Sited) (n := Run) fun _ x y => Tells x y where
  own hx := lift hx.keepsFlag
  pure := pure
  bind := bind
  read hk _ := (lift fun _ => rfl : Tells (liftM Run.world) (liftM Run.world)).bind hk

theorem stays_set (h : Tells x y) {w : World} (hw : w.debugger.stopped = true) :
    (y.exec w).2.debugger.stopped = true := by
  have hxw := h w
  generalize x.exec w = r at hxw
  generalize y.exec w = q at hxw
  cases hxw with
  | value kept => exact kept.trans hw
  | program kept => exact kept.trans hw
  | stop clear set => exact set

/-- After the computation the flag is set exactly if it was before or a stop failed. -/
theorem stopped_iff (h : Tells x y) (w : World) : (y.exec w).2.debugger.stopped = true ↔
    w.debugger.stopped = true ∨ ∃ f u, x.exec w = (.error (.stop, f), u) := by
  have hxw := h w
  generalize x.exec w = r at hxw
  generalize y.exec w = q at hxw
  cases hxw with
  | value kept => simp [kept]
  | program kept => simp [kept]
  | stop clear set => simp [set]

/-- The computation that says where faults are raised ends as the other one. -/
theorem exec_eq (h : Tells x y) (w : World) :
    y.exec w = ((x.exec w).1.mapError (·.2), (x.exec w).2) := by
  have hxw := h w
  generalize x.exec w = r at hxw
  generalize y.exec w = q at hxw
  cases hxw <;> rfl

end Tells

/-! ## Stops -/

section
open Run ExceptT

/-- The computation keeps the flag set. -/
def StaysStopped {α : Type} (m : Run α) : Prop :=
  ∀ w, w.debugger.stopped = true → (m.exec w).2.debugger.stopped = true

namespace StaysStopped

variable {α β : Type} {m : Run α}

theorem pure (a : α) : StaysStopped (pure a : Run α) := fun _ h => h

theorem throw (f : Fault) : StaysStopped (throw f : Run α) := fun _ h => h

theorem bind {k : α → Run β} (hm : StaysStopped m) (hk : ∀ a, StaysStopped (k a)) :
    StaysStopped (m >>= k) := by
  intro w hw
  have hmw := hm w hw
  rw [exec_bind]
  generalize m.exec w = q at hmw
  rcases q with ⟨f | a, u⟩
  · exact hmw
  · exact hk a u hmw

theorem kept (hm : KeepsFlag m) : StaysStopped m := fun w h => (hm w).trans h

theorem own (hm : Own m) : StaysStopped m := kept hm.keepsFlag

theorem forIn {f : α → β → Run (ForInStep β)} (h : ∀ a b, StaysStopped (f a b)) :
    ∀ (l : List α) (b : β), StaysStopped (forIn l b f)
  | [], b => by
    rw [List.forIn_nil]
    exact .pure b
  | a :: l, b => by
    rw [List.forIn_cons]
    refine (h a b).bind fun s => ?_
    cases s with
    | done c => exact .pure c
    | yield c => exact forIn h l c

end StaysStopped

variable {ev : Expr → Run Value}

theorem parsed_own (text : String) : Own (parsed text) := .ofExcept _

theorem showVars_own : ∀ vars : Bindings Value, Own (showVars vars)
  | [] => .pure ()
  | (_, v) :: vars => (textOf_own v).bind fun _ => (write_own _).bind fun _ => showVars_own vars

theorem dump_own (scope : Nat) : Own (dump scope) :=
  (write_own _).bind fun _ => .read (fun w => showVars_own _) fun h => by rw [h.scopes]

theorem evalIfAny_staysStopped (hev : ∀ e, StaysStopped (ev e)) :
    ∀ e : Option Expr, StaysStopped (evalIfAny ev e)
  | some e => hev e
  | none => .throw _

/-- The commands of a stop keep the flag set. -/
theorem obey_staysStopped (hev : ∀ e, StaysStopped (ev e)) (pos : Option Pos) (scope : Nat) :
    ∀ n, StaysStopped (obey ev pos scope n)
  | 0 => .throw _
  | n + 1 => by
    have hagain : StaysStopped (obey ev pos scope n) := obey_staysStopped hev pos scope n
    refine (StaysStopped.kept fun _ => rfl).bind fun w => ?_
    refine (StaysStopped.forIn (fun watch _ => ?_) w.debugger.watches PUnit.unit).bind fun _ => ?_
    · exact (evalIfAny_staysStopped hev watch.2).bind fun v => (StaysStopped.own (write_own _)).bind
        fun _ => (StaysStopped.own (textOf_own v)).bind fun _ =>
          (StaysStopped.own (write_own _)).bind fun _ => .pure _
    cases pos with
    | none => exact .throw _
    | some p =>
      refine (StaysStopped.kept (readLine_keepsFlag _)).bind fun line => ?_
      split
      · exact .pure ()
      · exact .kept fun _ => rfl
      · exact (StaysStopped.own (dump_own scope)).bind fun _ => hagain
      · exact (StaysStopped.own (parsed_own _)).bind fun e =>
          (StaysStopped.kept fun _ => rfl).bind fun _ => hagain
      · exact (StaysStopped.own (parsed_own _)).bind fun e =>
          (evalIfAny_staysStopped hev e).bind fun v => (StaysStopped.own (textOf_own v)).bind
            fun _ => (StaysStopped.own (write_own _)).bind fun _ => hagain
      · exact hagain

/-- A stop that fails leaves the flag set, and one that ends well clears it. -/
theorem exec_stop (hev : ∀ e, StaysStopped (ev e)) (pos : Option Pos) (scope : Nat) (w : World) :
    (∃ u, (stop ev pos scope).exec w = (.ok (), u) ∧ u.debugger.stopped = false) ∨
      ∃ f u, (stop ev pos scope).exec w = (.error f, u) ∧ u.debugger.stopped = true := by
  let begun : World := { w with debugger := { w.debugger with stepping := true, stopped := true } }
  have hstop : (stop ev pos scope).exec w =
      (obey ev pos scope (w.input.length + 1) >>= fun _ =>
        modifyDebugger fun d => { d with stopped := false }).exec begun := rfl
  have hobey := obey_staysStopped hev pos scope (w.input.length + 1) begun rfl
  rw [hstop, exec_bind]
  generalize (obey ev pos scope (w.input.length + 1)).exec begun = q at hobey
  rcases q with ⟨f | a, u⟩
  · exact .inr ⟨f, u, rfl, hobey⟩
  · exact .inl ⟨_, rfl, rfl⟩

end

/-! ## Evaluation -/

theorem stopIf_tells {ev : Expr → Run Value} (hev : ∀ e, StaysStopped (ev e)) (e : Option Expr)
    (pos : Option Pos) (scope : Nat) :
    Tells (stopIf e (Run.stop ev pos scope))
      (do if (← Run.world).debugger.stopsAt e then Run.stop ev pos scope) := by
  intro w
  rw [stopIf, ExceptT.exec_bind, ExceptT.exec_get_bind]
  show Told w (ExceptT.exec (if w.debugger.stopsAt e then _ else _) w) _
  by_cases hstops : w.debugger.stopsAt e = true
  · rw [if_pos hstops, if_pos hstops]
    have hclear : w.debugger.stopped = false := by
      simp only [Debugger.stopsAt, Bool.and_eq_true, Bool.not_eq_true'] at hstops
      exact hstops.1
    have hraised : (Sited.raisedAt .stop (Run.stop ev pos scope)).exec w =
        (((Run.stop ev pos scope).exec w).1.mapError (.stop, ·),
          ((Run.stop ev pos scope).exec w).2) := rfl
    rw [hraised]
    rcases exec_stop hev pos scope w with ⟨u, hu, hended⟩ | ⟨f, u, hu, hset⟩
    · rw [hu]
      exact .value (hended.trans hclear.symm)
    · rw [hu]
      exact .stop hclear hset
  · rw [if_neg hstops, if_neg hstops]
    exact .value rfl

/-- Under the flag, an evaluation keeps it. -/
theorem staysStopped_of_tells {x : Sited Value} {y : Run Value} (h : Tells x y) : StaysStopped y :=
  fun _ hw => h.stays_set hw

theorem eval_tells (room : Nat) (e : Expr) (scope : Nat) :
    Tells (evalSited room e scope) (eval room e scope) := by
  induction room using Nat.strongRecOn generalizing e scope with | ind room ih
  cases room with
  | zero => exact .lift fun _ => rfl
  | succ room =>
    have hgo : ∀ used e scope,
        Tells (evalSited (room - used) e scope) (eval (room - used) e scope) :=
      fun used => ih (room - used) (Nat.lt_succ_of_le (Nat.sub_le room used))
    rw [eval_succ, evalSited, nested_succ]
    exact (stopIf_tells (fun e => staysStopped_of_tells (hgo 1 e scope)) (some e)
      (some e.pos) scope).bind fun _ =>
        evalNode_related Tells.congruence Tells.congruence.sameRoom hgo room e scope

theorem evalProgram_tells (e : Option Expr) (scope : Nat) :
    Tells (evalProgramSited e scope) (evalProgram e scope) := by
  cases e with
  | some e => exact eval_tells depthLimit e scope
  | none =>
    rw [evalProgram_none]
    exact (stopIf_tells (fun e => staysStopped_of_tells (eval_tells _ e scope)) none none
      scope).bind fun _ => .lift fun _ => rfl

/-! ## Sessions -/

namespace Session

/-- Takes a turn as `turn` does, and says where a fault was raised. -/
def turnSited : Sited Unit := do
  let line ← Run.readLine "> "
  let v ← evalProgramSited (← Run.parsed line) scope
  Run.writeLine (← Run.textOf v)

theorem turn_tells : Tells turnSited turn := by
  have hturn : turn = (do
      let line ← Run.readLine "> "
      let e ← Run.parsed line
      let v ← evalProgram e scope
      Run.writeLine (← Run.textOf v)) := by
    simp only [turn, evalText, bind_assoc]
  rw [hturn]
  exact (Tells.lift (readLine_keepsFlag _)).bind fun line =>
    (Tells.lift (parsed_own line).keepsFlag).bind fun e => (evalProgram_tells e scope).bind fun v =>
      (Tells.lift (textOf_own v).keepsFlag).bind fun _ => .lift (write_own _).keepsFlag

/-- The line that is read in a world ends with a fault that is raised in a stop. -/
def FailsInStop (w : World) : Prop := ∃ f u, turnSited.exec w = (.error (.stop, f), u)

/-- The worlds in which a session that starts in `start` has asked for lines, and the one in which
    it is about to ask for the next. -/
inductive Prompts (stopOnError : Bool) (start : World) : List World → World → Prop
  | first : Prompts stopOnError start [] start
  | next {before : List World} {w u : World} (h : Prompts stopOnError start before w)
    (more : (round stopOnError).exec w = (.ok true, u)) :
    Prompts stopOnError start (before ++ [w]) u

theorem debugger_of_round {stopOnError more : Bool} {w u : World}
    (h : (round stopOnError).exec w = (.ok more, u)) :
    u.debugger = (turn.exec w).2.debugger := by
  have hcaught : ExceptT.exec (ExceptT.lift turn.run : Run (Except Fault Unit)) w =
      (.ok (turn.exec w).1, (turn.exec w).2) := rfl
  rw [round, ExceptT.exec_bind, hcaught] at h
  dsimp only at h
  generalize turn.exec w = ended at h ⊢
  rcases ended with ⟨f | a, v⟩
  · dsimp only at h
    split at h
    · cases h
      rfl
    split at h
    · cases h
    · rw [ExceptT.exec_bind, Run.exec_ofExcept] at h
      cases hshown : f.shown with
      | error f =>
        rw [hshown] at h
        cases h
      | ok text =>
        rw [hshown] at h
        cases h
        rfl
  · cases h
    rfl

namespace Prompts

variable {stopOnError : Bool} {start w : World} {before : List World}

/-- The flag is set at a prompt exactly if it was at the start or a stop failed since. -/
theorem stopped_iff (h : Prompts stopOnError start before w) : w.debugger.stopped = true ↔
    start.debugger.stopped = true ∨ ∃ u ∈ before, FailsInStop u := by
  induction h with
  | first => simp
  | @next before w u h more ih =>
    rw [debugger_of_round more, turn_tells.stopped_iff w, ih]
    simp [FailsInStop, or_and_right, exists_or, or_assoc]

theorem repl_eq (h : Prompts stopOnError start before w) (n : Nat) :
    (repl stopOnError (before.length + n)).exec start = (repl stopOnError n).exec w := by
  induction h generalizing n with
  | first => simp
  | @next before w u h more ih =>
    have hlength : (before ++ [w]).length + n = before.length + (n + 1) := by
      simp [Nat.add_comm, Nat.add_left_comm]
    rw [hlength, ih, repl, ExceptT.exec_bind, more]
    rfl

end Prompts

/-- A file that is interpreted to its end leaves the flag alone. -/
theorem interpretNamed_tells (r : InterpretRequest) : ∃ x, Tells x (interpretNamed r) := by
  unfold interpretNamed
  split
  · split
    · exact ⟨_, .pure ()⟩
    · exact ⟨_, (Tells.lift fun _ => rfl : Tells _ Run.world).bind fun _ =>
        (Tells.lift (Own.ofExcept _).keepsFlag).bind fun e =>
          (evalProgram_tells (some e) scope).bind fun v =>
            (Tells.lift (textOf_own v).keepsFlag).bind fun _ => .lift (write_own _).keepsFlag⟩
  · exact ⟨_, .pure ()⟩

end Session

open Session

/-- **One failed command disables the debugger.**  In every session, with any files and lines, at
    every prompt: the flag that keeps the debugger from stopping is set exactly if some line before
    ended with a fault that was raised in a stop, and exactly then a `trap` does not stop.  The
    turns that say where faults are raised are those of the session, and the session goes on from
    the prompt. -/
theorem stopped_iff_stop_failed (r : InterpretRequest) (files : Files) (input : List String)
    {first w : World} {before : List World}
    (hfile : (interpretNamed r).exec (start files input) = (.ok (), first))
    (h : Prompts r.stopOnError first before w) :
    (w.debugger.stopped = true ↔ ∃ u ∈ before, FailsInStop u) ∧
    (∀ pos, w.debugger.stopsAt (some (.trap pos)) = false ↔ ∃ u ∈ before, FailsInStop u) ∧
    (∀ u, turn.exec u = ((turnSited.exec u).1.mapError (·.2), (turnSited.exec u).2)) ∧
    ∀ n, (repl r.stopOnError (before.length + n)).exec first = (repl r.stopOnError n).exec w := by
  have hfirst : first.debugger.stopped = false := by
    obtain ⟨x, hx⟩ := interpretNamed_tells r
    have hstart := hx (start files input)
    rw [hfile] at hstart
    generalize x.exec (start files input) = q at hstart
    cases hstart with
    | value kept => exact kept
  have hiff : w.debugger.stopped = true ↔ ∃ u ∈ before, FailsInStop u := by
    simpa [hfirst] using h.stopped_iff
  refine ⟨hiff, fun pos => ?_, turn_tells.exec_eq, h.repl_eq⟩
  simp [← hiff, Debugger.stopsAt]

/-- The line `trap` stops, and the command `e x` fails because there is no `x`: at the next prompt
    the debugger is disabled. -/
theorem failed_command_disables_debugger :
    let w := start [] ["trap", "e x"]
    let u := ((round false).exec w).2
    Prompts false w [w] u ∧ u.debugger.stopped = true ∧ FailsInStop w := by
  intro w u
  have hround : ((round false).exec w).1.toOption = some true := by decide +kernel
  have hstopped : u.debugger.stopped = true := by decide +kernel
  have hnext : (round false).exec w = (.ok true, u) := by
    show _ = (_, ((round false).exec w).2)
    generalize (round false).exec w = q at hround
    rcases q with ⟨f | b, v⟩
    · cases hround
    · cases hround
      rfl
  have hprompts : Prompts false w [w] u := .next .first hnext
  obtain ⟨hiff, -⟩ := stopped_iff_stop_failed ⟨none, true, false⟩ [] ["trap", "e x"] rfl hprompts
  exact ⟨hprompts, hstopped, by simpa using hiff.1 hstopped⟩

end ExprLang
