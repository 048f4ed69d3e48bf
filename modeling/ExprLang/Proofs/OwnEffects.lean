/-
  What programs do themselves.

  A program changes its scopes, its lexers and the marks of its values, and writes.  It sees neither
  the debugger nor what was written, and reads no lines.

  * `Own m`: so does the computation `m`.  It is closed under all that computations are built from,
    and holds of all operations that expressions use;
  * `Congruence R`: the relation `R` between computations of two monads holds of the same own
    effects in both, and is kept when computations are put together;
  * `Roomier R more`: it also holds of what depends on the room for nested calls, where the second
    computation has room for `more` calls than the first;
  * `evalNode_related`: then it is kept by every form of expression.
-/
import ExprLang.Proofs.Runs

namespace ExprLang

/-- Two worlds are the same to a program. -/
structure Same (w v : World) : Prop where
  scopes : v.scopes = w.scopes
  lexers : v.lexers = w.lexers
  files : v.files = w.files
  lastMark : v.lastMark = w.lastMark

/-- What a program leaves: its scopes, its lexers and the last mark, and the text that it wrote. -/
structure Change where
  scopes : Forest Value Nat
  lexers : Array Lexing
  lastMark : Nat
  text : String

def World.changed (w : World) (c : Change) : World :=
  { w with
    scopes := c.scopes, lexers := c.lexers, lastMark := c.lastMark, page := w.page ++ c.text }

def World.unchanged (w : World) : Change := ⟨w.scopes, w.lexers, w.lastMark, ""⟩

/-- The computation is one of a program: it does the same in all worlds that are the same to it. -/
def Own {α : Type} (m : Run α) : Prop :=
  ∀ w, ∃ r c, ∀ v, Same w v → m.exec v = (r, v.changed c)

section
variable {α β : Type} {w v : World}

theorem Same.refl (w : World) : Same w w := ⟨rfl, rfl, rfl, rfl⟩

theorem Same.changed (h : Same w v) (c : Change) : Same (w.changed c) (v.changed c) :=
  ⟨rfl, rfl, h.files, rfl⟩

theorem World.changed_unchanged (h : Same w v) : v.changed w.unchanged = v := by
  have hpage : v.page ++ "" = v.page := String.append_empty
  unfold World.changed World.unchanged
  rw [← h.scopes, ← h.lexers, ← h.lastMark, hpage]

theorem World.changed_changed (w : World) (c d : Change) :
    (w.changed c).changed d = w.changed { d with text := c.text ++ d.text } := by
  simp [World.changed, String.append_assoc]

namespace Own

variable {m : Run α}

theorem pure (a : α) : Own (pure a : Run α) :=
  fun w => ⟨.ok a, w.unchanged, fun _ h => by rw [World.changed_unchanged h]; rfl⟩

theorem throw (f : Fault) : Own (throw f : Run α) :=
  fun w => ⟨.error f, w.unchanged, fun _ h => by rw [World.changed_unchanged h]; rfl⟩

theorem bind {k : α → Run β} (hm : Own m) (hk : ∀ a, Own (k a)) : Own (m >>= k) := by
  intro w
  obtain ⟨r, c, hm⟩ := hm w
  cases r with
  | error f => exact ⟨.error f, c, fun v h => by rw [ExceptT.exec_bind, hm v h]⟩
  | ok a =>
    obtain ⟨r', d, hk⟩ := hk a (w.changed c)
    refine ⟨r', { d with text := c.text ++ d.text }, fun v h => ?_⟩
    rw [ExceptT.exec_bind, hm v h, ← World.changed_changed]
    exact hk _ (h.changed c)

theorem ofExcept (r : Except Fault α) : Own (Run.ofExcept r) := by
  cases r with
  | ok a => exact .pure a
  | error f => exact .throw f

theorem read {k : World → Run α} (hk : ∀ w, Own (k w)) (hsame : ∀ {w v}, Same w v → k v = k w) :
    Own (get >>= k) := by
  intro w
  obtain ⟨r, c, hr⟩ := hk w w
  refine ⟨r, c, fun v h => ?_⟩
  rw [ExceptT.exec_get_bind, hsame h]
  exact hr v h

theorem change {f : World → World} (hf : ∀ w, ∃ c, ∀ v, Same w v → f v = v.changed c) :
    Own (modify f : Run Unit) := by
  intro w
  obtain ⟨c, hc⟩ := hf w
  exact ⟨.ok (), c, fun v h => by rw [← hc v h]; rfl⟩

end Own

end

/-! ## Operations -/

section
open Run

theorem write_own (s : String) : Own (write s) :=
  .change fun w => ⟨{ w.unchanged with text := s }, fun v h => by
    simp only [World.changed, World.unchanged, ← h.scopes, ← h.lexers, ← h.lastMark]⟩

theorem stamp_own (v : Value) : Own (stamp v) := by
  have hnew : Own (do
      modify fun w => { w with lastMark := w.lastMark + 1 }
      return v.withMark (← get).lastMark : Run Value) := by
    refine .bind (.change fun w => ⟨{ w.unchanged with lastMark := w.lastMark + 1 }, ?_⟩)
      fun _ => .read (fun w => .pure _) fun h => by rw [h.lastMark]
    intro v h
    simp [World.changed, World.unchanged, ← h.scopes, ← h.lexers, ← h.lastMark]
  cases v with
  | nan | array | scalar => exact hnew
  | _ => exact .pure _

theorem fresh_own (v : Except Fault Value) : Own (fresh v) :=
  (Own.ofExcept v).bind stamp_own

theorem part_own (whole : Value) (v : Except Fault Value) : Own (part whole v) := by
  unfold part
  split
  · exact fresh_own v
  · exact .ofExcept v

theorem addScope_own (add : Forest Value Nat → Nat × Forest Value Nat) : Own (addScope add) := by
  intro w
  refine ⟨.ok (add w.scopes).1, { w.unchanged with scopes := (add w.scopes).2 }, fun v h => ?_⟩
  have hadd : (addScope add).exec v =
      (.ok (add v.scopes).1, { v with scopes := (add v.scopes).2 }) := rfl
  simp [hadd, World.changed, World.unchanged, ← h.scopes, ← h.lexers, ← h.lastMark]

theorem modifyScopes_own (change : Forest Value Nat → Forest Value Nat) :
    Own (modifyScopes change) :=
  .change fun w => ⟨{ w.unchanged with scopes := change w.scopes }, fun v h => by
    simp [World.changed, World.unchanged, ← h.scopes, ← h.lexers, ← h.lastMark]⟩

theorem push_own (scope : Nat) (names : List String) : Own (push scope names) := addScope_own _

theorem textOf_own (v : Value) : Own (textOf v) := by
  refine .read (fun w => ?_) fun h => by rw [h.scopes]
  dsimp only
  split
  · exact .throw _
  · exact .pure _

theorem writeValues_own : ∀ vs : List Value, Own (writeValues vs)
  | [] => .pure ()
  | [v] => (textOf_own v).bind fun s => write_own s
  | v :: u :: vs => (textOf_own v).bind fun s =>
    (write_own (s ++ " ")).bind fun _ => writeValues_own (u :: vs)

end

namespace ListOps

theorem head_own (l : Value) : Own (head l) :=
  .read (fun _ => part_own l _) fun h => by rw [h.scopes]

theorem tail_own (l : Value) : Own (tail l) :=
  .read (fun _ => part_own l _) fun h => by rw [h.scopes]

theorem nonempty_own (l : Value) : Own (nonempty l) := .ofExcept _

theorem concat_own : ∀ (n : Nat) (a b : Value), Own (concat n a b)
  | 0, _, _ => .throw _
  | n + 1, a, b => by
    refine (nonempty_own a).bind fun more => ?_
    cases more with
    | false => exact .pure b
    | true =>
      exact (head_own a).bind fun _ => (tail_own a).bind fun rest =>
        (concat_own n rest b).bind fun _ => .pure _

theorem reverse_own : ∀ (n : Nat) (a done : Value), Own (reverse n a done)
  | 0, _, _ => .throw _
  | n + 1, a, done => by
    refine (nonempty_own a).bind fun more => ?_
    cases more with
    | false => exact .pure done
    | true =>
      exact (tail_own a).bind fun rest => (head_own a).bind fun first =>
        reverse_own n rest (.cons first done)

end ListOps

section
open Run

theorem withLexer_own {α : Type} (id : Nat) (f : Lexing → Except Fault α × Lexing) :
    Own (withLexer id f) := by
  refine .read (fun w => ?_) fun h => by rw [h.lexers]
  cases w.lexers[id]? with
  | none => exact .throw _
  | some l =>
    refine .bind (.change fun w => ⟨{ w.unchanged with lexers := w.lexers.set! id (f l).2 }, ?_⟩)
      fun _ => .ofExcept _
    intro v h
    simp [World.changed, World.unchanged, ← h.scopes, ← h.lexers, ← h.lastMark]

theorem newStruct_own (members : Bindings Value) : Own (Run.newStruct members) :=
  (addScope_own _).bind fun _ => .pure _

theorem newLexer_own : Own newLexer := by
  refine .read (fun w => ?_) fun h => by rw [h.lexers]
  refine .bind (.change fun w => ⟨{ w.unchanged with lexers := w.lexers.push .start }, ?_⟩)
    fun _ => newStruct_own _
  intro v h
  simp [World.changed, World.unchanged, ← h.scopes, ← h.lexers, ← h.lastMark]

theorem lexerInput_own (id : Nat) (v : Value) : Own (lexerInput id v) := by
  unfold lexerInput
  split
  · exact (withLexer_own id _).bind fun _ => .pure _
  · exact (withLexer_own id _).bind fun _ => .pure _
  all_goals exact .throw _

theorem lexerNext_own (id : Nat) : Own (lexerNext id) := by
  refine (withLexer_own id _).bind fun t => ?_
  cases t with
  | none => exact .pure _
  | some t => exact newStruct_own _

theorem lexerHasNext_own (id : Nat) : Own (lexerHasNext id) :=
  (withLexer_own id _).bind fun _ => .pure _

theorem Builtin.body_own (room : Nat) (f : Builtin) (args : List Value) :
    Own (f.body room args) := by
  unfold Builtin.body
  split
  · split
    · exact .pure _
    · exact .throw _
  · exact .pure _
  · exact ListOps.head_own _
  · exact ListOps.tail_own _
  · exact ListOps.concat_own _ _ _
  · exact ListOps.reverse_own _ _ _
  · exact fresh_own _
  · exact (writeValues_own _).bind fun _ => (write_own _).bind fun _ => .pure _
  · exact newLexer_own
  · exact lexerInput_own _ _
  · exact lexerNext_own _
  · exact lexerHasNext_own _
  · exact .pure _

theorem Builtin.run_own (room : Nat) (f : Builtin) (args : List Value) :
    Own (f.run room args) := by
  unfold Builtin.run
  split
  · exact .throw _
  split
  · exact .throw _
  · exact f.body_own room args

theorem defineBuiltins_own (scope : Nat) : Own (defineBuiltins scope) := modifyScopes_own _

theorem UnOp.apply_own (op : UnOp) (v : Value) : Own (op.apply v) := by
  cases op with
  | not => exact .ofExcept _
  | plus =>
    cases v with
    | nan m => exact .pure _
    | _ => exact fresh_own _
  | minus => exact fresh_own _

theorem BinOp.apply_own (op : BinOp) (a b : Value) : Own (op.apply a b) := by
  cases op with
  | and | or | nand | nor | imp => exact .ofExcept _
  | _ => exact fresh_own _

theorem bindParams_own (scope : Nat) (rest : Bool) : ∀ (ps : List String) (args : List Value),
    Own (bindParams scope rest ps args)
  | [], _ => .pure ()
  | [p], args => by
    cases rest with
    | true => exact (fresh_own _).bind fun _ => modifyScopes_own _
    | false =>
      cases args with
      | nil => exact .pure ()
      | cons v vs =>
        rw [bindParams, if_neg Bool.false_ne_true]
        exact modifyScopes_own _
  | p :: q :: ps, args => by
    cases args with
    | cons v vs =>
      exact (modifyScopes_own _).bind fun _ => bindParams_own scope rest (q :: ps) vs
    | nil =>
      cases rest with
      | true => exact .throw _
      | false => exact .pure ()

theorem openProc_own (scope : Nat) : Own (openProc scope) := by
  refine .read (fun w => ?_) fun h => by rw [h.scopes]
  exact (push_own _ []).bind fun _ => (defineBuiltins_own _).bind fun _ => .pure _

theorem newStructOf_own (parent : Option Value) (names : List String) :
    Own (newStruct parent names) := by
  have hfill : ∀ id, Own (do
      Run.modifyScopes fun f => names.foldl (fun f n => f.bind id n .null) f
      return id : Run Nat) :=
    fun id => (modifyScopes_own _).bind fun _ => .pure id
  unfold newStruct
  split
  · exact (addScope_own _).bind hfill
  · exact (push_own _ _).bind hfill
  · exact (Own.throw _).bind hfill

theorem openStruct_own (parent : Option Value) (names : List String) (scope : Nat) :
    Own (openStruct parent names scope) :=
  (newStructOf_own parent names).bind fun _ => (push_own scope []).bind fun _ =>
    (modifyScopes_own _).bind fun _ => .pure _

end

/-! ## Expressions -/

section
variable {m n : Type → Type} [Monad m] [MonadLiftT Run m] [Monad n] [MonadLiftT Run n]

/-- The relation holds of the same own effects in two monads, and is kept when computations are put
    together. -/
structure Congruence (R : ∀ α : Type, m α → n α → Prop) : Prop where
  own {α : Type} {x : Run α} : Own x → R _ (liftM x) (liftM x)
  pure {α : Type} (a : α) : R _ (pure a) (pure a)
  bind {α β : Type} {x : m α} {y : n α} {k : α → m β} {l : α → n β} : R _ x y →
    (∀ a, R _ (k a) (l a)) → R _ (x >>= k) (y >>= l)
  read {α : Type} {k : World → m α} {l : World → n α} : (∀ w, R _ (k w) (l w)) →
    (∀ {w v}, Same w v → k v = k w ∧ l v = l w) →
    R _ (liftM Run.world >>= k) (liftM Run.world >>= l)

/-- The relation holds of what depends on the room for nested calls, where there is room for `more`
    calls in the second monad than in the first. -/
structure Roomier (R : ∀ α : Type, m α → n α → Prop) (more : Nat) : Prop where
  tooDeep : more = 0 ∨ ∀ y : n Value, R _ (liftM (throw .tooDeep : Run Value)) y
  lookup (room : Nat) (f : Forest Value Nat) (scope : Nat) (name : String) :
    R _ (liftM (Run.ofExcept (f.lookup room scope name)))
      (liftM (Run.ofExcept (f.lookup (room + more) scope name)))
  member (room : Nat) (f : Forest Value Nat) (v : Value) (name : String) :
    R _ (liftM (Run.ofExcept (v.member? room f name)))
      (liftM (Run.ofExcept (v.member? (room + more) f name)))
  file (room : Nat) (files : Files) (path : String) :
    R _ (liftM (Run.ofExcept ((parseFile (room - 1) files path).mapError .read)))
      (liftM (Run.ofExcept ((parseFile (room + more - 1) files path).mapError .read)))
  run (room : Nat) (f : Builtin) (args : List Value) :
    R _ (liftM (f.run room args)) (liftM (f.run (room + more) args))

namespace Congruence

variable {R : ∀ α : Type, m α → n α → Prop} (hR : Congruence R) {α β : Type}

include hR

theorem map [LawfulMonad m] [LawfulMonad n] {f : α → β} {x : m α} {y : n α} (h : R _ x y) :
    R _ (f <$> x) (f <$> y) := by
  rw [map_eq_pure_bind, map_eq_pure_bind]
  exact hR.bind h fun a => hR.pure (f a)

theorem mapM [LawfulMonad m] [LawfulMonad n] {f : α → m β} {g : α → n β}
    (h : ∀ a, R _ (f a) (g a)) : ∀ l : List α, R _ (l.mapM f) (l.mapM g)
  | [] => by
    rw [List.mapM_nil, List.mapM_nil]
    exact hR.pure []
  | a :: l => by
    rw [List.mapM_cons, List.mapM_cons]
    exact hR.bind (h a) fun _ => hR.bind (mapM h l) fun _ => hR.pure _

theorem foldlM {f : β → α → m β} {g : β → α → n β} (h : ∀ b a, R _ (f b a) (g b a)) :
    ∀ (l : List α) (b : β), R _ (l.foldlM f b) (l.foldlM g b)
  | [], b => hR.pure b
  | a :: l, b => by
    rw [List.foldlM_cons, List.foldlM_cons]
    exact hR.bind (h b a) fun c => foldlM h l c

theorem forIn {f : α → β → m (ForInStep β)} {g : α → β → n (ForInStep β)}
    (h : ∀ a b, R _ (f a b) (g a b)) : ∀ (l : List α) (b : β), R _ (forIn l b f) (forIn l b g)
  | [], b => by
    rw [List.forIn_nil, List.forIn_nil]
    exact hR.pure b
  | a :: l, b => by
    rw [List.forIn_cons, List.forIn_cons]
    refine hR.bind (h a b) fun s => ?_
    cases s with
    | done c => exact hR.pure c
    | yield c => exact forIn h l c

/-- Where there is as much room in both monads, what depends on it is the same own effect. -/
theorem sameRoom : Roomier R 0 where
  tooDeep := .inl rfl
  lookup _ _ _ _ := hR.own (.ofExcept _)
  member _ _ _ _ := hR.own (.ofExcept _)
  file _ _ _ := hR.own (.ofExcept _)
  run room f args := hR.own (f.run_own room args)

theorem repeatTimes {body : m Value} {body' : n Value} (hb : R _ body body') :
    ∀ (k : Nat) (last : Value), R _ (repeatTimes body k last) (repeatTimes body' k last)
  | 0, last => hR.pure last
  | k + 1, _ => hR.bind hb fun v => repeatTimes hb k v

theorem repeatWhile {condition body : m Value} {condition' body' : n Value}
    (hc : R _ condition condition') (hb : R _ body body') : ∀ (k : Nat) (last : Value),
    R _ (repeatWhile condition body k last) (repeatWhile condition' body' k last)
  | 0, _ => hR.own (.throw _)
  | k + 1, last => by
    refine hR.bind hc fun c => hR.bind (hR.own (.ofExcept c.truth)) fun more => ?_
    cases more with
    | true => exact hR.bind hb fun v => repeatWhile hc hb k v
    | false => exact hR.pure last

variable {more : Nat} (hmore : Roomier R more)

include hmore

theorem listMap {f : Nat → Value → m Value} {g : Nat → Value → n Value} : ∀ (k : Nat) (l : Value),
    (∀ left < k, ∀ v, R _ (f left v) (g (left + more) v)) →
    R _ (ListOps.map f k l) (ListOps.map g (k + more) l)
  | 0, l, _ => by
    rcases hmore.tooDeep with rfl | hdeep
    · exact hR.own (.throw _)
    · exact hdeep _
  | k + 1, l, h => by
    rw [Nat.add_right_comm]
    refine hR.bind (hR.own (ListOps.nonempty_own l)) fun some => ?_
    cases some with
    | false => exact hR.pure _
    | true =>
      exact hR.bind (hR.own (ListOps.head_own l)) fun first =>
        hR.bind (h k (Nat.lt_succ_self k) first) fun _ =>
          hR.bind (hR.own (ListOps.tail_own l)) fun rest =>
            hR.bind (listMap k rest fun left hleft => h left (Nat.lt_succ_of_lt hleft)) fun _ =>
              hR.pure _

variable {go : Nat → Evaluator m} {go' : Nat → Evaluator n}

theorem callOther (hgo : ∀ used e scope, R _ (go used e scope) (go' used e scope)) (room : Nat)
    (f : Value) (args : List Value) :
    R _ (callOther room go f args) (callOther (room + more) go' f args) := by
  cases f with
  | closure scope params body rest locals =>
    exact hR.bind (hR.own (push_own _ _)) fun inner =>
      hR.bind (hR.own (bindParams_own inner rest params args)) fun _ =>
        hgo closureCalls body inner
  | builtin f => exact hmore.run room f args
  | _ => exact hR.own (.throw _)

theorem call (hgo : ∀ used e scope, R _ (go used e scope) (go' used e scope)) (room : Nat)
    (f : Value) (args : List Value) :
    R _ (call room go f args) (call (room + more) go' f args) := by
  unfold ExprLang.call
  split
  · refine hR.listMap hmore _ _ fun left _ v => ?_
    rw [Nat.add_sub_add_right]
    exact hR.callOther hmore (fun used => hgo _) left _ [v]
  · exact hR.callOther hmore hgo room f args

end Congruence

theorem evalNode_related [LawfulMonad m] [LawfulMonad n] {R : ∀ α : Type, m α → n α → Prop}
    (hR : Congruence R) {more : Nat} (hmore : Roomier R more) {go : Nat → Evaluator m}
    {go' : Nat → Evaluator n} (hgo : ∀ used e scope, R _ (go used e scope) (go' used e scope))
    (room : Nat) (e : Expr) (scope : Nat) :
    R _ (evalNode room go e scope) (evalNode (room + more) go' e scope) := by
  cases e with
  | number | bool | string | char | lambda | trap => exact hR.pure _
  | array _ es => exact hR.bind (hR.mapM (hgo 1 · scope) es) fun _ => hR.own (fresh_own _)
  | dict _ entries =>
    refine hR.bind (hR.foldlM (fun pairs entry => ?_) entries []) fun _ => hR.pure _
    refine hR.bind (hgo 1 entry.1 scope) fun key => hR.bind (hgo 1 entry.2 scope) fun value => ?_
    cases key.unhashable? with
    | some t => exact hR.own (.throw _)
    | none => exact hR.pure _
  | unary _ op a => exact hR.bind (hgo 0 a scope) fun v => hR.own (op.apply_own v)
  | binary _ op a b =>
    exact hR.bind (hgo 0 a scope) fun l => hR.bind (hgo 0 b scope) fun r => hR.own (op.apply_own l r)
  | index _ a b =>
    refine hR.bind (hgo 0 a scope) fun l => hR.bind (hgo 0 b scope) fun r => ?_
    exact hR.read (fun _ => hR.own (part_own l _)) fun h => by simp only [h.scopes, and_self]
  | assign _ target a =>
    exact hR.bind (hgo 0 a scope) fun v => hR.bind (hR.own (.ofExcept _)) fun _ =>
      hR.bind (hR.own (modifyScopes_own _)) fun _ => hR.pure v
  | var p x =>
    refine hR.read (fun w => hR.bind (hmore.lookup room w.scopes scope x) fun v => ?_)
      fun h => by simp only [h.scopes, and_self]
    cases v with
    | some v => exact hR.pure v
    | none => exact hR.own (.throw _)
  | lock _ _ body => exact hgo 0 body scope
  | letIn _ bindings body =>
    refine hR.bind (hR.own (.ofExcept _)) fun names => hR.bind (hR.own (push_own scope names))
      fun inner => ?_
    refine hR.bind (hR.forIn (fun b _ => ?_) bindings PUnit.unit) fun _ => hgo 0 body inner
    exact hR.bind (hgo 0 _ inner) fun _ => hR.pure _
  | sequence _ parts => exact hR.foldlM (fun _ e => hgo 0 e scope) parts .null
  | loop _ count body =>
    exact hR.bind (hgo 0 count scope) fun v => hR.bind (hR.own (.ofExcept v.toInt)) fun k =>
      hR.repeatTimes (hgo 0 body scope) k.toNat .null
  | whileDo _ condition body =>
    exact hR.repeatWhile (hgo 0 condition scope) (hgo 0 body scope) roundLimit .null
  | doWhile _ condition body =>
    exact hR.bind (hgo 0 body scope) fun first =>
      hR.repeatWhile (hgo 0 condition scope) (hgo 0 body scope) roundLimit first
  | ifThen _ condition yes no =>
    refine hR.bind (hgo 0 condition scope) fun c => hR.bind (hR.own (.ofExcept c.truth)) fun b => ?_
    cases b with
    | true => exact hgo 0 yes scope
    | false =>
      cases no with
      | some e => exact hgo 0 e scope
      | none => exact hR.pure _
  | proc _ params locals body => exact hR.bind (hR.own (openProc_own scope)) fun _ => hR.pure _
  | call _ f args =>
    exact hR.bind (hgo 0 f scope) fun callee => hR.bind (hR.mapM (hgo 1 · scope) args) fun vs =>
      hR.call hmore hgo room callee vs
  | struct _ fields parent =>
    have habove : R _ (parent.mapM (go 0 · scope)) (parent.mapM (go' 0 · scope)) := by
      cases parent with
      | none => exact hR.pure none
      | some e => exact hR.map (hgo 0 e scope)
    refine hR.bind habove fun above => hR.bind (hR.own (openStruct_own above _ scope))
      fun opened => ?_
    refine hR.bind (hR.forIn (fun b _ => ?_) fields PUnit.unit) fun _ => hR.pure _
    exact hR.bind (hgo 0 _ opened.2) fun _ => hR.pure _
  | member p owner name up =>
    refine hR.bind (hgo 0 owner scope) fun v => ?_
    refine hR.read (fun w => hR.bind (hR.own (.ofExcept _)) fun v =>
      hR.bind (hmore.member room w.scopes v name) fun m => ?_)
      fun h => by simp only [h.scopes, and_self]
    cases m with
    | some m => exact hR.pure m
    | none => exact hR.own (.throw _)
  | memberAssign p name value =>
    refine hR.read (fun w => ?_) fun h => by simp only [h.scopes, and_self]
    cases w.scopes.mark? scope with
    | none => exact hR.own (.throw _)
    | some id =>
      refine hR.read (fun w => ?_) fun h => by simp only [h.scopes, and_self]
      split
      · exact hR.bind (hgo 0 value scope) fun v => hR.bind (hR.own (modifyScopes_own _))
          fun _ => hR.pure v
      · exact hR.own (.throw _)
  | this _ =>
    refine hR.read (fun w => ?_) fun h => by simp only [h.scopes, and_self]
    cases w.scopes.mark? scope with
    | some id => exact hR.pure _
    | none => exact hR.pure _
  | importFile _ path =>
    refine hR.read (fun w => ?_) fun h => by simp only [h.files, and_self]
    exact hR.bind (hmore.file room w.files path) fun e =>
      hR.bind (hR.own (addScope_own _)) fun root =>
      hR.bind (hR.own (defineBuiltins_own root)) fun _ => hgo 0 e root

end

end ExprLang
