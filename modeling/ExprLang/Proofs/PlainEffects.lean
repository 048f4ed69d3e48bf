/-
  Effects that leave structs alone.

  `Run.Quiet m Q`: the computation `m` changes no scope, and what it gives satisfies `Q`.
  `Run.Plain r m Q`: it makes a plain step of the region `r`, and what it gives satisfies `Q` in the
  region after it.

  Built-in functions and operators are quiet, but for the lexers, which are new structs.  Adding a
  scope below another (`push_plain`, `openProc_plain`) and binding names that one refers to
  (`set_plain`, `bindParams_plain`) are plain.
-/
import ExprLang.Proofs.Tracing

namespace ExprLang

open Value

/-! ## Computations that change no scope -/

namespace Run

/-- A computation changes no scope, and what it gives satisfies `Q`. -/
def Quiet {α : Type} (m : Run α) (Q : α → Prop) : Prop :=
  ∀ w, (m.exec w).2.scopes = w.scopes ∧ Gives Q (m.exec w).1

/-- A computation makes a plain step of a region, and what it gives satisfies `Q` after it. -/
def Plain {α : Type} (r : Region) (m : Run α) (Q : Region → α → Prop) : Prop :=
  ∀ w, r.Holds w.scopes → ∃ r', Region.PlainStep r w.scopes r' (m.exec w).2.scopes ∧
    Gives (Q r') (m.exec w).1

namespace Quiet

variable {α β : Type} {m : Run α} {Q : α → Prop} {R : β → Prop}

theorem pure {a : α} (h : Q a) : Quiet (pure a) Q := fun _ => ⟨rfl, .pure h⟩

theorem throw (f : Fault) : Quiet (throw f) Q := fun _ => ⟨rfl, nofun⟩

theorem bind {k : α → Run β} (hm : Quiet m Q) (hk : ∀ a, Q a → Quiet (k a) R) :
    Quiet (m >>= k) R := by
  intro w
  obtain ⟨hscopes, hq⟩ := hm w
  rw [ExceptT.exec_bind]
  rcases hmw : m.exec w with ⟨_ | a, u⟩
  · rw [hmw] at hscopes
    exact ⟨hscopes, nofun⟩
  · rw [hmw] at hscopes hq
    obtain ⟨hscopes', hr⟩ := hk a (hq a rfl) u
    exact ⟨hscopes'.trans hscopes, hr⟩

/-- Whatever the first part of a computation gives. -/
theorem bind' {k : α → Run β} (hm : Quiet m fun _ => True) (hk : ∀ a, Quiet (k a) R) :
    Quiet (m >>= k) R :=
  hm.bind fun a _ => hk a

theorem read {k : World → Run α} (hk : ∀ w, Quiet (k w) Q) : Quiet (get >>= k) Q :=
  fun w => hk w w

theorem change {f : World → World} (hf : ∀ w, (f w).scopes = w.scopes) :
    Quiet (modify f) fun _ => True :=
  fun w => ⟨hf w, fun _ _ => trivial⟩

theorem ofExcept {v : Except Fault α} (h : Gives Q v) : Quiet (ofExcept v) Q :=
  fun w => by rw [exec_ofExcept]; exact ⟨rfl, h⟩

theorem plain {r : Region} {Q : Region → α → Prop} (hm : Quiet m (Q r)) : Plain r m Q := by
  intro w hw
  obtain ⟨hscopes, hq⟩ := hm w
  exact ⟨r, by rw [hscopes]; exact .refl hw, hq⟩

theorem bind_plain {k : α → Run β} {r : Region} {R : Region → β → Prop} (hm : Quiet m Q)
    (hk : ∀ a, Q a → Plain r (k a) R) : Plain r (m >>= k) R := by
  intro w hw
  obtain ⟨hscopes, hq⟩ := hm w
  rw [ExceptT.exec_bind]
  rcases hmw : m.exec w with ⟨_ | a, u⟩
  · rw [hmw] at hscopes
    exact ⟨r, by rw [show u.scopes = w.scopes from hscopes]; exact .refl hw, nofun⟩
  · rw [hmw] at hscopes hq
    obtain ⟨r', hstep, hr⟩ := hk a (hq a rfl) u (by rw [hscopes]; exact hw)
    exact ⟨r', by rw [hscopes] at hstep; exact hstep, hr⟩

theorem bind_keeps {k : α → Run β} {r : Region} (hm : Quiet m Q)
    (hk : ∀ a, Q a → ∀ w, r.Holds w.scopes → r.Keeps w.scopes ((k a).exec w).2.scopes)
    (w : World) (hw : r.Holds w.scopes) : r.Keeps w.scopes ((m >>= k).exec w).2.scopes := by
  obtain ⟨hscopes, hq⟩ := hm w
  rw [ExceptT.exec_bind]
  rcases hmw : m.exec w with ⟨_ | a, u⟩
  · rw [hmw] at hscopes
    rw [← hscopes] at hw ⊢
    exact .refl hw
  · rw [hmw] at hscopes hq
    rw [← hscopes] at hw ⊢
    exact hk a (hq a rfl) u hw

end Quiet

variable {P : Ref → Prop}

theorem stamp_quiet {v : Value} (hv : v.Only P) : Quiet (stamp v) (Value.Only P) := by
  have hnew : Quiet (do
      modify fun w => { w with lastMark := w.lastMark + 1 }
      return v.withMark (← get).lastMark : Run Value) (Value.Only P) :=
    .bind' (.change fun _ => by rfl) fun _ => .read fun w => .pure (only_withMark.2 hv)
  cases v with
  | nan | array | scalar => exact hnew
  | _ => exact .pure hv

theorem fresh_quiet {v : Except Fault Value} (hv : Gives (Value.Only P) v) :
    Quiet (fresh v) (Value.Only P) :=
  (Quiet.ofExcept hv).bind fun _ hu => stamp_quiet hu

theorem part_quiet (whole : Value) {v : Except Fault Value} (hv : Gives (Value.Only P) v) :
    Quiet (part whole v) (Value.Only P) := by
  unfold part
  split
  · exact fresh_quiet hv
  · exact .ofExcept hv

theorem write_quiet (s : String) : Quiet (write s) fun _ => True := .change fun _ => rfl

theorem textOf_quiet (v : Value) : Quiet (textOf v) fun _ => True := by
  refine .read fun w => ?_
  dsimp only
  split
  · exact .throw _
  · exact .pure trivial

theorem writeValues_quiet : ∀ vs : List Value, Quiet (writeValues vs) fun _ => True
  | [] => .pure trivial
  | [v] => (textOf_quiet v).bind' fun s => write_quiet s
  | v :: u :: vs => (textOf_quiet v).bind' fun s => (write_quiet (s ++ " ")).bind' fun _ =>
    writeValues_quiet (u :: vs)

end Run

open Run

/-! ## Built-in functions -/

namespace ListOps

variable {P : Ref → Prop}

theorem only_ofValues {vs : List Value} (h : ∀ v ∈ vs, v.Only P) : (ofValues vs).Only P := by
  induction vs with
  | nil => exact only_nil
  | cons v vs ih =>
    exact only_cons.2 ⟨h v (by simp), ih fun u hu => h u (by simp [hu])⟩

theorem head_quiet {l : Value} (hl : l.Only P) : Quiet (head l) (Value.Only P) :=
  .read fun w => part_quiet l (only_position w.scopes hl 0)

theorem tail_quiet {l : Value} (hl : l.Only P) : Quiet (tail l) (Value.Only P) :=
  .read fun w => part_quiet l (only_position w.scopes hl 1)

theorem nonempty_quiet (l : Value) : Quiet (nonempty l) fun _ => True :=
  .ofExcept fun _ _ => trivial

theorem concat_quiet : ∀ (n : Nat) {a b : Value}, a.Only P → b.Only P →
    Quiet (concat n a b) (Value.Only P)
  | 0, _, _, _, _ => .throw _
  | n + 1, a, b, ha, hb => by
    refine (nonempty_quiet a).bind' fun more => ?_
    cases more with
    | false => exact .pure hb
    | true =>
      exact (head_quiet ha).bind fun _ hfirst => (tail_quiet ha).bind fun _ hrest =>
        (concat_quiet n hrest hb).bind fun _ hall => .pure (only_cons.2 ⟨hfirst, hall⟩)

theorem reverse_quiet : ∀ (n : Nat) {a done : Value}, a.Only P → done.Only P →
    Quiet (reverse n a done) (Value.Only P)
  | 0, _, _, _, _ => .throw _
  | n + 1, a, done, ha, hd => by
    refine (nonempty_quiet a).bind' fun more => ?_
    cases more with
    | false => exact .pure hd
    | true =>
      exact (tail_quiet ha).bind fun _ hrest => (head_quiet ha).bind fun _ hfirst =>
        reverse_quiet n hrest (only_cons.2 ⟨hfirst, hd⟩)

end ListOps

theorem withLexer_quiet {α : Type} (id : Nat) (f : Lexing → Except Fault α × Lexing) :
    Quiet (withLexer id f) fun _ => True := by
  refine .read fun w => ?_
  cases w.lexers[id]? with
  | none => exact .throw _
  | some l => exact .bind' (.change fun _ => by rfl) fun _ => .ofExcept fun _ _ => trivial

theorem lexerInput_quiet {P : Ref → Prop} (id : Nat) (v : Value) :
    Quiet (lexerInput id v) (Value.Only P) := by
  unfold lexerInput
  split
  · exact (withLexer_quiet id _).bind' fun _ => .pure only_null
  · exact (withLexer_quiet id _).bind' fun _ => .pure only_null
  all_goals exact .throw _

theorem lexerHasNext_quiet {P : Ref → Prop} (id : Nat) :
    Quiet (lexerHasNext id) (Value.Only P) :=
  (withLexer_quiet id _).bind' fun _ => .pure (only_bool _)

theorem newStruct_plain (r : Region) {members : Bindings Value}
    (hm : ∀ b ∈ members, b.2.Only r.Has) : Plain r (Run.newStruct members) Safe := by
  intro w hw
  have hfit : r.Fits ⟨members, none, none⟩ (.struct none (members.map (·.1))) :=
    .struct hm (fun _ => Bindings.has_iff) rfl nofun
  refine ⟨_, hw.add_plain hfit nofun nofun, .pure ?_⟩
  exact only_struct.2 ⟨_, _, Region.put_self⟩

theorem newLexer_plain (r : Region) : Plain r newLexer Safe := by
  have hread : Quiet (get : Run World) fun _ => True := fun w => ⟨rfl, fun _ _ => trivial⟩
  refine hread.bind_plain fun w _ =>
    Quiet.bind_plain (.change fun _ => by rfl) fun _ _ => ?_
  exact newStruct_plain r (by simp)

theorem lexerNext_plain (r : Region) (id : Nat) : Plain r (lexerNext id) Safe := by
  refine (withLexer_quiet id _).bind_plain fun t _ => ?_
  cases t with
  | none => exact (Quiet.pure only_nil).plain
  | some t => exact newStruct_plain r (by simp)

theorem Builtin.body_plain (room : Nat) (f : Builtin) {r : Region} {args : List Value}
    (ha : AllSafe r args) : Plain r (f.body room args) Safe := by
  unfold Builtin.body
  split
  · split
    · exact (Quiet.pure (ListOps.only_ofValues ha)).plain
    · exact (Quiet.throw _).plain
  · exact (Quiet.pure (only_cons.2 ⟨ha _ (by simp), ha _ (by simp)⟩)).plain
  · exact (ListOps.head_quiet (ha _ (by simp))).plain
  · exact (ListOps.tail_quiet (ha _ (by simp))).plain
  · exact (ListOps.concat_quiet _ (ha _ (by simp)) (ha _ (by simp))).plain
  · exact (ListOps.reverse_quiet _ (ha _ (by simp)) only_nil).plain
  · exact (fresh_quiet ((Grid.only_ofValues ha).bind fun _ hg => .pure hg.toValue)).plain
  · exact ((writeValues_quiet _).bind' fun _ => (write_quiet _).bind' fun _ =>
      .pure only_null).plain
  · exact newLexer_plain r
  · exact (lexerInput_quiet _ _).plain
  · exact lexerNext_plain r _
  · exact (lexerHasNext_quiet _).plain
  · exact (Quiet.pure only_null).plain

theorem Builtin.run_plain (room : Nat) (f : Builtin) {r : Region} {args : List Value}
    (ha : AllSafe r args) : Plain r (f.run room args) Safe := by
  unfold Builtin.run
  split
  · exact (Quiet.throw _).plain
  split
  · exact (Quiet.throw _).plain
  · exact f.body_plain room ha

theorem only_builtins {P : Ref → Prop} (scope : Nat) : ∀ b ∈ builtins scope, b.2.Only P := by
  simp [builtins]

/-! ## Operators -/

theorem UnOp.apply_quiet {P : Ref → Prop} (op : UnOp) {v : Value} (hv : v.Only P) :
    Quiet (op.apply v) (Value.Only P) := by
  cases op with
  | not => exact .ofExcept (.bind' fun _ => .pure (only_bool _))
  | plus =>
    cases v with
    | nan m => exact .pure hv
    | _ => exact fresh_quiet (only_withSign false hv)
  | minus => exact fresh_quiet (only_withSign true hv)

theorem BinOp.apply_quiet {P : Ref → Prop} (op : BinOp) {a b : Value} (ha : a.Only P)
    (hb : b.Only P) : Quiet (op.apply a b) (Value.Only P) := by
  cases op with
  | plus | minus | times | divide => exact fresh_quiet (only_arith _ ha hb)
  | lt | gt | le | ge | eqs | eq | neqs | neq | xor => exact fresh_quiet (only_compare _ a b)
  | and =>
    refine .ofExcept (.bind' fun t => .pure ?_)
    split <;> assumption
  | or =>
    refine .ofExcept (.bind' fun t => .pure ?_)
    split <;> assumption
  | nand | nor => exact .ofExcept (.bind' fun _ => .bind' fun _ => .pure (only_bool _))
  | imp =>
    refine .ofExcept (.bind' fun t => .pure ?_)
    split
    · exact hb
    · exact only_bool _

/-! ## Scopes -/

section
variable {r : Region} {scope : Nat}

theorem push_plain {own : Option Nat} (hs : r.Within scope own) (names : List String) :
    Plain r (Run.push scope names) fun r' id => r'.Within id own := by
  intro w hw
  have hvars : ∀ b ∈ names.foldl (fun bs n => Bindings.set bs n Value.null) [],
      b.2.Only r.Has := by
    intro b hb
    rw [Bindings.snd_of_mem_foldl_set hb]
    exact only_null
  have hstep := hw.add_code hs hvars
  rw [← hw.mark? hs] at hstep ⊢
  exact ⟨_, hstep, .pure ⟨_, _, Region.put_self⟩⟩

theorem pushBuiltins_plain {own : Option Nat} (hs : r.Within scope own) :
    Plain r (do let inner ← Run.push scope []; defineBuiltins inner; return inner)
      fun r' id => r'.Within id own := by
  intro w hw
  have hvars : ∀ b ∈ (builtins w.scopes.size).foldl (fun bs c => Bindings.set bs c.1 c.2) [],
      b.2.Only r.Has := by
    intro b hb
    rcases Bindings.mem_foldl_set _ [] hb with hb | ⟨c, hc, hb⟩
    · cases hb
    · rw [hb]
      exact only_builtins w.scopes.size c hc
  have hstep := hw.add_code hs hvars
  rw [← hw.mark? hs] at hstep ⊢
  rw [← Forest.bind_all_add w.scopes _ ⟨[], some scope, w.scopes.mark? scope⟩] at hstep
  exact ⟨_, hstep, .pure ⟨_, _, Region.put_self⟩⟩

theorem openProc_plain (hs : r.Has (.code scope)) :
    Plain r (openProc scope) fun r' id => r'.Has (.code id) := by
  intro w hw
  obtain ⟨own, hroot⟩ := hw.code_root hs
  have hexec : (openProc scope).exec w = (do
      let inner ← Run.push (w.scopes.root scope) []
      defineBuiltins inner
      return inner : Run Nat).exec w := by
    rw [openProc, ExceptT.exec_bind]
    rfl
  rw [hexec]
  obtain ⟨r', hstep, hid⟩ := pushBuiltins_plain hroot w hw
  exact ⟨r', hstep, fun id h => (hid id h).has⟩

theorem modifyScopes_plain {change : Forest Value Nat → Forest Value Nat}
    (hc : ∀ f, r.Holds f → r.Keeps f (change f)) :
    Plain r (Run.modifyScopes change) fun _ _ => True :=
  fun w hw => ⟨r, (hc w.scopes hw).plainStep, fun _ _ => trivial⟩

theorem defineBuiltins_plain (hs : r.Root scope) :
    Plain r (defineBuiltins scope) fun _ _ => True :=
  modifyScopes_plain fun f hf =>
    Region.Keeps.bind_all hs.has _ f (only_builtins scope) hf (hf.root_parent? hs)

theorem set_plain (hs : r.Has (.code scope)) (x : String) {v : Value} (hv : Safe r v) :
    Plain r (Run.modifyScopes fun f => f.set scope x v) fun _ _ => True :=
  modifyScopes_plain fun _ hf => Region.Keeps.set hf hs hv

theorem bindParams_keeps (hs : r.Has (.code scope)) (rest : Bool) : ∀ (ps : List String)
    (args : List Value), AllSafe r args → ∀ w : World, r.Holds w.scopes →
    r.Keeps w.scopes ((bindParams scope rest ps args).exec w).2.scopes
  | [], _, _, w, hw => .refl hw
  | [p], args, ha, w, hw => by
    cases rest with
    | true =>
      have hgrid : Quiet (Run.fresh (return (← Grid.ofValues args).toValue)) (Safe r) :=
        fresh_quiet ((Grid.only_ofValues ha).bind fun _ hg => .pure hg.toValue)
      refine hgrid.bind_keeps (fun v hv w hw => ?_) w hw
      exact .set hw hs hv
    | false =>
      cases args with
      | nil => exact .refl hw
      | cons v vs =>
        rw [bindParams, if_neg Bool.false_ne_true]
        exact .set hw hs (ha v (by simp))
  | p :: q :: ps, [], _, w, hw => by
    cases rest with
    | true => exact .refl hw
    | false => exact .refl hw
  | p :: q :: ps, v :: vs, ha, w, hw => by
    have hset : r.Keeps w.scopes (w.scopes.set scope p v) := .set hw hs (ha v (by simp))
    exact hset.trans (bindParams_keeps hs rest (q :: ps) vs (fun u hu => ha u (by simp [hu]))
      { w with scopes := w.scopes.set scope p v } hset.holds)

theorem bindParams_plain (hs : r.Has (.code scope)) (rest : Bool) (ps : List String)
    {args : List Value} (ha : AllSafe r args) :
    Plain r (bindParams scope rest ps args) fun _ _ => True :=
  fun w hw => ⟨r, (bindParams_keeps hs rest ps args ha w hw).plainStep, fun _ _ => trivial⟩

end

end ExprLang
