/-
  Runs under a debugger.

  A computation is run twice: under a debugger that may stop it, with commands that only go on or
  look at variables, and undisturbed.  The two worlds stay alike (`Alike`): they differ in the
  debugger, the input and the output only.

  * `Event` is what a run under the debugger shows: text of the program, and the stops;
  * `EndsAs` compares the ends of the two runs.  They are the same unless the input runs out or a
    dump meets an integer with too many digits;
  * `Transparent m`: every two runs of `m` end so.  This holds of all that a program does itself,
    and of every form of expression if it holds of the parts (`evalNode_transparent`).
-/
import ExprLang.Proofs.OwnEffects

namespace ExprLang

/-! ## What a run shows -/

/-- What was written: the pages up to each line that was read, and the page since. -/
structure Output where
  pages : List String
  page : String

namespace Output

def write (o : Output) (s : String) : Output := ⟨o.pages, o.page ++ s⟩

/-- The debugger asks for a line at a place. -/
def ask (o : Output) (p : Pos) : Output := ⟨(o.page ++ p.prompt) :: o.pages, ""⟩

end Output

def World.output (w : World) : Output := ⟨w.pages, w.page⟩

def goLines : List String := ["s", "c"]

def lookLines : List String := ["v", "var", "vars"]

/-- A variable as a dump shows it. -/
def varLine (scopes : Forest Value Nat) (x : String × Value) : String :=
  String.ofList (Text.padRight 24 x.1.toList) ++ " = " ++ x.2.alone scopes ++ "\n"

def dumpText (scopes : Forest Value Nat) (vars : Bindings Value) : String :=
  "========== VAR DUMP ==========\n" ++ String.join (vars.map (varLine scopes))

/-- What a run under the debugger shows. -/
inductive Event where
  /-- The program wrote a text. -/
  | wrote (text : String)
  /-- A line ended a stop. -/
  | went (p : Pos) (line : String) (h : line ∈ goLines)
  /-- A line asked for the variables of a scope. -/
  | looked (p : Pos) (line : String) (h : line ∈ lookLines) (scopes : Forest Value Nat)
      (scope : Nat)

namespace Event

def text : Event → String
  | wrote s => s
  | _ => ""

def line? : Event → Option String
  | wrote _ => none
  | went _ line _ | looked _ line _ _ _ => some line

def apply (o : Output) : Event → Output
  | wrote s => o.write s
  | went p _ _ => o.ask p
  | looked p _ _ scopes scope => (o.ask p).write (dumpText scopes (scopes.visible scope))

def replay (events : List Event) (o : Output) : Output := events.foldl apply o

def texts (events : List Event) : String := String.join (events.map text)

def lines (events : List Event) : List String := events.filterMap line?

@[simp] theorem replay_append (as bs : List Event) (o : Output) :
    replay (as ++ bs) o = replay bs (replay as o) := List.foldl_append

@[simp] theorem texts_append (as bs : List Event) : texts (as ++ bs) = texts as ++ texts bs := by
  simp [texts]

@[simp] theorem lines_append (as bs : List Event) : lines (as ++ bs) = lines as ++ lines bs :=
  List.filterMap_append

end Event

/-! ## Two runs -/

/-- The worlds of a run under a debugger and of one that it leaves alone.  No commands are left but
    those that go on or look. -/
structure Alike (w v : World) : Prop where
  scopes : v.scopes = w.scopes
  lexers : v.lexers = w.lexers
  files : v.files = w.files
  lastMark : v.lastMark = w.lastMark
  quiet : v.debugger.stopped = true
  unwatched : w.debugger.watches = []
  plain : ∀ line ∈ w.input, line ∈ goLines ++ lookLines

theorem Alike.same {w v : World} (h : Alike w v) : Same w v :=
  ⟨h.scopes, h.lexers, h.files, h.lastMark⟩

/-- From `w` to `w'` the run under the debugger showed the events, and from `v` to `v'` the other
    one wrote what the program wrote in them. -/
structure Shows (events : List Event) (w v w' v' : World) : Prop where
  read : w.input = Event.lines events ++ w'.input
  shown : w'.output = Event.replay events w.output
  written : v'.output = v.output.write (Event.texts events)

/-- A dump failed: after some events a line asked for the variables of a scope, and one of them
    holds an integer with too many digits. -/
inductive Unshown (w w' : World) : Prop where
  | mk (events : List Event) (p : Pos) (line : String) (scope : Nat) (before after : Bindings Value)
    (x : String) (v : Value) (look : line ∈ lookLines)
    (read : w.input = Event.lines events ++ line :: w'.input)
    (vars : w'.scopes.visible scope = before ++ (x, v) :: after)
    (long : v.overlongAlone w'.scopes = true)
    (shown : w'.output =
      ((Event.replay events w.output).ask p).write (dumpText w'.scopes before))
    (stopped : w'.debugger.stopped = true)

/-- How a run under a debugger ends, from `w`, compared with one that it leaves alone, from `v`. -/
inductive EndsAs {α : Type} (w v : World) :
    Except Fault α × World → Except Fault α × World → Prop where
  | same {r : Except Fault α} {w' v' : World} (events : List Event)
    (hs : Shows events w v w' v') (ha : Alike w' v') : EndsAs w v (r, w') (r, v')
  | ended {w' : World} {q : Except Fault α × World} : EndsAs w v (.error .endOfInput, w') q
  | unshown {w' : World} {q : Except Fault α × World} (hu : Unshown w w') :
    EndsAs w v (.error .overlongInteger, w') q

/-- Debugging a computation does not change what it does. -/
def Transparent {α : Type} (m : Run α) : Prop :=
  ∀ w v, Alike w v → EndsAs w v (m.exec w) (m.exec v)

section
variable {w v w' v' u x : World} {α β : Type} {as bs : List Event}

theorem Output.write_nil (o : Output) : o.write "" = o := by
  simp [Output.write]

theorem Shows.nil (hin : w'.input = w.input) (hw : w'.output = w.output)
    (hv : v'.output = v.output) : Shows [] w v w' v' :=
  ⟨hin.symm, hw, by rw [hv]; exact (Output.write_nil _).symm⟩

theorem Shows.trans (h : Shows as w v w' v') (h' : Shows bs w' v' u x) :
    Shows (as ++ bs) w v u x := by
  refine ⟨?_, ?_, ?_⟩
  · rw [h.read, h'.read, Event.lines_append, List.append_assoc]
  · rw [h'.shown, h.shown, Event.replay_append]
  · rw [h'.written, h.written, Event.texts_append]
    simp [Output.write, String.append_assoc]

theorem Unshown.after (h : Shows as w v w' v') (hu : Unshown w' u) : Unshown w u := by
  obtain ⟨bs, p, line, scope, before, after, x, y, look, read, vars, long, shown, stopped⟩ := hu
  refine ⟨as ++ bs, p, line, scope, before, after, x, y, look, ?_, vars, long, ?_, stopped⟩
  · rw [h.read, read, Event.lines_append, List.append_assoc]
  · rw [shown, h.shown, Event.replay_append]

theorem EndsAs.after {r q : Except Fault α × World} (h : Shows as w v w' v')
    (ho : EndsAs w' v' r q) : EndsAs w v r q := by
  cases ho with
  | same bs hs ha => exact .same (as ++ bs) (h.trans hs) ha
  | ended => exact .ended
  | unshown hu => exact .unshown (hu.after h)

/-- Two computations go on as two others end. -/
theorem EndsAs.bind {m m' : Run α} {k k' : α → Run β} (hm : EndsAs w v (m.exec w) (m'.exec v))
    (hk : ∀ a w' v', Alike w' v' → EndsAs w' v' ((k a).exec w') ((k' a).exec v')) :
    EndsAs w v ((m >>= k).exec w) ((m' >>= k').exec v) := by
  rw [ExceptT.exec_bind, ExceptT.exec_bind]
  generalize m.exec w = r at hm
  generalize m'.exec v = q at hm
  cases hm with
  | @same r w' v' as hs ha =>
    cases r with
    | ok a => exact (hk a w' v' ha).after hs
    | error f => exact .same as hs ha
  | ended => exact .ended
  | unshown hu => exact .unshown hu

end

namespace Transparent

variable {α β : Type} {m : Run α}

theorem pure (a : α) : Transparent (pure a : Run α) :=
  fun _ _ h => .same [] (.nil rfl rfl rfl) h

theorem throw (f : Fault) : Transparent (throw f : Run α) :=
  fun _ _ h => .same [] (.nil rfl rfl rfl) h

theorem bind {k : α → Run β} (hm : Transparent m) (hk : ∀ a, Transparent (k a)) :
    Transparent (m >>= k) :=
  fun w v h => (hm w v h).bind fun a => hk a

/-- A program does what it does itself without regard to the debugger. -/
theorem own (hm : Own m) : Transparent m := by
  intro w v h
  obtain ⟨r, c, hc⟩ := hm w
  rw [hc w (.refl w), hc v h.same]
  refine .same [.wrote c.text] ⟨rfl, rfl, ?_⟩
    ⟨rfl, rfl, h.files, rfl, h.quiet, h.unwatched, h.plain⟩
  simp [World.output, World.changed, Output.write, Event.texts, Event.text]

theorem read {k : World → Run α} (hk : ∀ w, Transparent (k w))
    (hsame : ∀ {w v}, Same w v → k v = k w) : Transparent (get >>= k) := by
  intro w v h
  rw [ExceptT.exec_get_bind, ExceptT.exec_get_bind, hsame h.same]
  exact hk w w v h

theorem congruence : Congruence (m := Run) (n := Run) fun _ x y => x = y ∧ Transparent x where
  own hx := ⟨rfl, own hx⟩
  pure a := ⟨rfl, pure a⟩
  bind := fun ⟨hxy, hx⟩ hk => ⟨by rw [hxy, funext fun a => (hk a).1], hx.bind fun a => (hk a).2⟩
  read hk hsame :=
    ⟨by rw [funext fun w => (hk w).1], read (fun w => (hk w).2) fun h => (hsame h).1⟩

end Transparent

theorem evalNode_transparent {go : Nat → Evaluator Run}
    (hgo : ∀ used e scope, Transparent (go used e scope)) (room : Nat) (e : Expr) (scope : Nat) :
    Transparent (evalNode room go e scope) :=
  (evalNode_related Transparent.congruence Transparent.congruence.sameRoom
    (fun used e scope => ⟨rfl, hgo used e scope⟩) room e scope).2

end ExprLang
