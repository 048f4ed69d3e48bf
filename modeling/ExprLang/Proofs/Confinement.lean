/-
  Evaluation keeps to its region.

  All effects of an evaluation are plain, but for three: a struct expression opens a new struct
  (`openStruct_sound`), a member assignment changes the struct that it belongs to
  (`assignMember_sound`), and an import adds a root (`addRoot_sound`).

  * `lexicalNode_sound`: evaluation in a scope of a region is sound if that of the parts is, and
    `this` is the struct that the region says;
  * `stop_sound`: a stop of the debugger is sound too;
  * `eval_sound`, `evalProgram_sound`: so every evaluation is;
  * `evalLexical_sound`, `evalProgramLexical_sound`: and so it is if `this` is handed down.
-/
import ExprLang.Proofs.LexicalThis
import ExprLang.Proofs.PlainEffects

namespace ExprLang

open Value Run

/-! ## Structs -/

section
variable {r : Region} {scope : Nat}

variable {parent : Option Nat}

/-- The world after a struct was opened: its own scope is added and, after it, one that belongs to
    it. -/
def World.opened (w : World) (names : List String) (parent : Option Nat) (scope : Nat) : World :=
  { w with scopes :=
      ((w.scopes.add ⟨names.foldl (fun bs n => bs.set n .null) [], parent, none⟩).2.add
        ⟨[], some scope, some w.scopes.size⟩).2 }

def Forest.withMembers (f : Forest Value Nat) (names : List String) (s : Scope Value Nat) :
    Forest Value Nat :=
  names.foldl (fun g n => g.bind f.size n .null) (f.add s).2

theorem opened_eq (w : World) (names : List String) (parent : Option Nat) (scope : Nat) :
    let g := (w.scopes.withMembers names ⟨[], parent, none⟩).push scope [] .null
    g.1 = w.scopes.size + 1 ∧
      g.2.setMark g.1 (some w.scopes.size) = (w.opened names parent scope).scopes := by
  intro g
  have hg : w.scopes.withMembers names ⟨[], parent, none⟩ =
      (w.scopes.add ⟨names.foldl (fun bs n => bs.set n .null) [], parent, none⟩).2 := by
    have hall := Forest.bind_all_add w.scopes (names.map (·, Value.null)) ⟨[], parent, none⟩
    rwa [List.foldl_map, List.foldl_map] at hall
  refine ⟨?_, ?_⟩
  · show Forest.size (w.scopes.withMembers names ⟨[], parent, none⟩) = _
    rw [hg, Forest.size_add]
  · rw [World.opened, ← hg]
    exact Forest.modify_add (w.scopes.withMembers names ⟨[], parent, none⟩) _ _

theorem exec_openStruct_none (w : World) (names : List String) (scope : Nat) :
    (openStruct none names scope).exec w =
      (.ok (w.scopes.size, w.scopes.size + 1), w.opened names none scope) := by
  obtain ⟨hid, hscopes⟩ := opened_eq w names none scope
  have hexec : (openStruct none names scope).exec w =
      let g := (w.scopes.withMembers names ⟨[], none, none⟩).push scope [] .null
      (.ok (w.scopes.size, g.1), { w with scopes := g.2.setMark g.1 (some w.scopes.size) }) := rfl
  rw [hexec]
  dsimp only
  rw [hscopes, hid]
  rfl

theorem exec_openStruct_struct (w : World) (names : List String) (scope : Nat) {p : Nat}
    (hp : w.scopes.mark? p = none) : (openStruct (some (.struct p)) names scope).exec w =
      (.ok (w.scopes.size, w.scopes.size + 1), w.opened names (some p) scope) := by
  obtain ⟨hid, hscopes⟩ := opened_eq w names (some p) scope
  have hexec : (openStruct (some (.struct p)) names scope).exec w =
      let g := (w.scopes.withMembers names ⟨[], some p, w.scopes.mark? p⟩).push scope [] .null
      (.ok (w.scopes.size, g.1), { w with scopes := g.2.setMark g.1 (some w.scopes.size) }) := rfl
  rw [hexec, hp]
  dsimp only
  rw [hscopes, hid]
  rfl

variable {doer : Option (Expr × Nat)}

theorem fits_members (names : List String) (hp : ∀ p, parent = some p → r.Has (.struct p)) :
    r.Fits ⟨names.foldl (fun bs n => bs.set n .null) [], parent, none⟩ (.struct parent names) := by
  refine .struct (fun b hb => ?_) (fun x => ?_) rfl hp
  · rw [Bindings.snd_of_mem_foldl_set hb]
    exact only_null
  · rw [Bindings.has_eq, Bindings.get?_foldl_set]
    split <;> simp_all [Bindings.get?]

/-- The scope that is added last belongs to the struct. -/
theorem mark?_opened_last (w : World) (names : List String) (parent : Option Nat) (scope : Nat) :
    (w.opened names parent scope).scopes.mark? (w.scopes.size + 1) = some w.scopes.size := by
  have hself := Forest.scope_add_self
    (w.scopes.add ⟨names.foldl (fun bs n => bs.set n .null) [], parent, none⟩).2
    ⟨[], some scope, some w.scopes.size⟩
  rw [Forest.size_add] at hself
  rw [World.opened, Forest.mark?, hself]
  rfl

/-- No other new scope belongs to a struct. -/
theorem eq_of_mark?_opened {w : World} {names : List String} {scope inner id : Nat}
    (hnew : w.scopes.size ≤ inner)
    (hmark : (w.opened names parent scope).scopes.mark? inner = some id) : id = w.scopes.size := by
  rcases Nat.lt_trichotomy inner (w.scopes.size + 1) with hlt | rfl | hgt
  · have hin : inner = w.scopes.size := by omega
    rw [World.opened, Forest.mark?, Forest.scope_add_lt (by rw [Forest.size_add]; exact hlt), hin,
      Forest.scope_add_self] at hmark
    cases hmark
  · rw [mark?_opened_last] at hmark
    exact (Option.some.inj hmark).symm
  · rw [World.opened, Forest.mark?_of_size_le (by simp only [Forest.size_add]; omega)] at hmark
    cases hmark

theorem opened_makes (w : World) (pos : Pos) (fields : List (Field Expr)) (above : Option Expr)
    (parent : Option Nat) (scope : Nat) :
    (⟨some (.struct pos fields above, scope), w, w.opened (fields.map (·.name)) parent scope⟩ :
      Effect).Makes w.scopes.size fields :=
  ⟨⟨pos, above, scope, rfl⟩, le_rfl, w.scopes.size + 1, Nat.le_succ _, mark?_opened_last ..⟩

theorem opened_respects {w : World} {names : List String} (hw : r.Holds w.scopes)
    (hs : r.Has (.code scope)) (hp : ∀ p, parent = some p → r.Has (.struct p))
    (hdoer : ∀ pos fields above k, doer = some (.struct pos fields above, k) →
      fields.map (·.name) = names) :
    (⟨doer, w, w.opened names parent scope⟩ : Effect).Respects r
      ((r.put w.scopes.size (.struct parent names)).put (w.scopes.size + 1)
        (.code (some w.scopes.size) (some scope) [])) := by
  have hsize : Forest.size (Forest.add w.scopes _).2 = w.scopes.size + 1 :=
    Forest.size_add w.scopes ⟨names.foldl (fun bs n => bs.set n .null) [], parent, none⟩
  have h₁ := hw.add (fits_members names hp)
  have hinner : (r.put w.scopes.size (.struct parent names)).Fits
      ⟨[], some scope, some w.scopes.size⟩ (.code (some w.scopes.size) (some scope) []) := by
    refine .code nofun (fun k hk => ?_) (fun p hp => ?_) fun _ x => Bindings.has_iff
    · cases hk
      exact ⟨_, _, Region.put_self⟩
    · cases hp
      exact h₁.sub.has _ hs
  have h₂ := h₁.holds.add hinner
  rw [hsize] at h₂
  refine ⟨h₁.trans h₂, fun k ⟨_, _, hk⟩ => .inl ?_, ?_, ?_⟩
  · have hlt := hw.lt hk
    show (w.opened names parent scope).scopes.scopes[k]? = w.scopes.scopes[k]?
    rw [World.opened, Forest.scope_add_lt (by omega), Forest.scope_add_lt hlt]
  · rintro id fields ⟨⟨pos, above, k, hd⟩, hid, inner, hnew, hmark⟩
    rw [hdoer pos fields above k hd, eq_of_mark?_opened (w := w) hnew hmark]
    exact ⟨parent, by rw [Region.put_of_ne (by omega), Region.put_self]⟩
  · rintro k ⟨_, _, hk⟩ hnew
    by_cases hlast : k = w.scopes.size + 1
    · subst hlast
      rw [Region.put_self] at hk
      exact nomatch hk
    rw [Region.put_of_ne hlast] at hk
    by_cases hfirst : k = w.scopes.size
    · subst hfirst
      rw [Region.put_self] at hk
      exact nomatch hk
    rw [Region.put_of_ne hfirst] at hk
    exact absurd (hw.lt hk) (Nat.not_lt.2 hnew)

end

/-! ## Sound effects -/

namespace Sound

variable {α : Type} {doer : Option (Expr × Nat)} {r : Region} {x : Run α} {Q : Region → α → Prop}

theorem plain (hx : Plain r x Q) : Sound doer r (liftM x) (liftM x) Q := by
  refine .own fun w hw => ?_
  obtain ⟨r', hstep, hq⟩ := hx w hw
  exact ⟨r', Effect.respects_of_plain hstep, hq⟩

theorem quiet (hx : Quiet x (Q r)) : Sound doer r (liftM x) (liftM x) Q := plain hx.plain

theorem value {x : Run Value} (hx : Quiet x (Value.Only r.Has)) :
    Sound doer r (liftM x) (liftM x) Safe :=
  quiet hx

/-- Whatever the computation gives. -/
theorem quiet' (hx : Quiet x fun _ => True) :
    Sound doer r (liftM x) (liftM x) fun _ _ => True :=
  quiet hx

theorem throw (f : Fault) : Sound doer r (liftM (throw f : Run α)) (liftM (throw f : Run α)) Q :=
  quiet (.throw f)

theorem world : Sound doer r (liftM Run.world) (liftM Run.world) fun r' w => r'.Holds w.scopes :=
  plain fun _ hw => ⟨r, .refl hw, .pure hw⟩

theorem ofExcept {v : Except Fault α} (hv : Gives (Q r) v) :
    Sound doer r (liftM (Run.ofExcept v)) (liftM (Run.ofExcept v)) Q :=
  quiet (.ofExcept hv)

end Sound

section
variable {doer : Option (Expr × Nat)} {r : Region} {scope : Nat}

theorem openStruct_sound (hs : r.Has (.code scope)) {parent : Option Value}
    (hp : ∀ v, parent = some v → Safe r v) {names : List String}
    (hdoer : ∀ pos fields above k, doer = some (.struct pos fields above, k) →
      fields.map (·.name) = names) :
    Sound doer r (liftM (openStruct parent names scope)) (liftM (openStruct parent names scope))
      fun r' ids => r'.Has (.struct ids.1) ∧ r'.Within ids.2 (some ids.1) := by
  -- Either way to open a struct ends in the same world, but for the parent.
  have hopened : ∀ w, r.Holds w.scopes → ∀ above : Option Nat,
      (∀ p, above = some p → r.Has (.struct p)) →
      (openStruct parent names scope).exec w =
        (.ok (w.scopes.size, w.scopes.size + 1), w.opened names above scope) →
      ∃ r', (⟨doer, w, ((openStruct parent names scope).exec w).2⟩ : Effect).Respects r r' ∧
        Gives (fun ids => r'.Has (.struct ids.1) ∧ r'.Within ids.2 (some ids.1))
          ((openStruct parent names scope).exec w).1 := by
    intro w hw above habove hexec
    rw [hexec]
    refine ⟨_, opened_respects hw hs habove hdoer,
      .pure ⟨⟨names, above, ?_⟩, ⟨_, _, Region.put_self⟩⟩⟩
    rw [Region.put_of_ne (by omega), Region.put_self]
  refine .own fun w hw => ?_
  cases parent with
  | none => exact hopened w hw none nofun (exec_openStruct_none w names scope)
  | some v =>
    cases v with
    | struct p =>
      have hp' : r.Has (.struct p) := only_struct.1 (hp _ rfl)
      exact hopened w hw (some p) (by rintro _ ⟨⟩; exact hp')
        (exec_openStruct_struct w names scope (hw.struct_mark? hp'))
    | _ => exact ⟨r, Effect.respects_of_plain (.refl hw), nofun⟩

theorem assignMember_sound {pos : Pos} {x : String} {value : Expr} {id : Nat} {v : Value}
    {names : List String} (hs : r.Within scope (some id)) (hid : r.Members id names)
    (hx : x ∈ names) (hv : Safe r v) :
    Sound (some (.memberAssign pos x value, scope)) r
      (liftM (Run.modifyScopes fun f => f.bind id x v))
      (liftM (Run.modifyScopes fun f => f.bind id x v)) fun _ _ => True := by
  refine .own fun w hw => ⟨r, ⟨?_, fun k _ => ?_, ?_, fun k hk hnew => ?_⟩, fun _ _ => trivial⟩
  · refine ⟨.refl r, Forest.size_bind.ge, fun k _ hnone => ⟨hnone, ?_⟩, hw.bind_struct hid hx hv,
      fun k y hy => Forest.has_vars_bind hy, fun k hk hlt => ?_⟩
    · obtain ⟨_, hid⟩ := hid
      exact Forest.scope_bind_ne (by rintro rfl; rw [hid] at hnone; exact nomatch hnone)
    · exact absurd (Forest.size_bind ▸ hlt) (Nat.not_lt.2 hk)
  · by_cases hk : k = id
    · subst hk
      exact .inr ⟨x, v, ⟨pos, value, scope, rfl, hw.mark? hs⟩, rfl⟩
    · exact .inl (Forest.scope_bind_ne hk)
  · rintro _ _ ⟨⟨_, _, _, hd⟩, -, -⟩
    exact nomatch hd
  · exact absurd (hk.lt hw) (Nat.not_lt.2 hnew)

theorem addRoot_sound (pos : Pos) (path : String) (scope : Nat) :
    Sound (some (.importFile pos path, scope)) r (liftM (Run.addScope Forest.addRoot))
      (liftM (Run.addScope Forest.addRoot)) fun r' id => r'.Root id ∧ r'.Within id none := by
  refine .own fun w hw => ?_
  have hself : (r.put w.scopes.size (.code none none [])) w.scopes.size =
      some (.code none none []) := Region.put_self
  refine ⟨_, ⟨hw.add r.fits_root, fun k ⟨_, _, hk⟩ => .inl (Forest.scope_add_lt (hw.lt hk)), ?_,
    fun _ _ _ => ⟨pos, path, scope, rfl⟩⟩, .pure ⟨⟨_, _, hself⟩, ⟨_, _, hself⟩⟩⟩
  rintro _ _ ⟨⟨_, _, _, hd⟩, -, -⟩
  exact nomatch hd

end

/-! ## Evaluation -/

/-- Evaluation in the scopes that belong to a struct is sound. -/
def SoundWithin (own : Option Nat) (goT : Evaluator Traced) (go : Evaluator Run) : Prop :=
  ∀ (doer : Option (Expr × Nat)) (r : Region) (e : Expr) (scope : Nat), r.Within scope own →
    Sound doer r (goT e scope) (go e scope) Safe

/-- Evaluation is sound if it is told the struct that the scope belongs to. -/
def SoundEvaluator (goT : Evaluator Traced) (go : Option Nat → Evaluator Run) : Prop :=
  ∀ own, SoundWithin own goT (go own)

/-- A closure has a scope that belongs to a struct. -/
def OwnedBy (r : Region) (own : Option Nat) : Value → Prop
  | .closure scope _ _ _ _ => r.Within scope own
  | _ => True

section
variable {goT : Nat → Evaluator Traced} {doer : Option (Expr × Nat)} {r : Region}
  {room scope : Nat} {own : Option Nat}

variable {f : Value} {args : List Value}

theorem OwnedBy.mono {r' : Region} (hf : OwnedBy r own f) (h : r.Sub r') : OwnedBy r' own f := by
  cases f with
  | closure _ _ _ _ _ => exact h.within hf
  | _ => trivial

theorem Region.Holds.ownedBy {scopes : Forest Value Nat} (hr : r.Holds scopes) (hf : Safe r f) :
    OwnedBy r (f.owner scopes) f := by
  cases f with
  | closure _ _ _ _ _ => exact hr.within (only_closure.1 hf)
  | _ => trivial

theorem ListOps.map_sound {f : Nat → Value → Traced Value} {g : Nat → Value → Run Value} :
    ∀ (n : Nat) (r : Region) (l : Value),
    (∀ left r' v, r.Sub r' → Safe r' v → Sound doer r' (f left v) (g left v) Safe) → Safe r l →
    Sound doer r (map f n l) (map g n l) Safe
  | 0, _, _, _, _ => .throw _
  | n + 1, r, l, hf, hl => by
    refine (Sound.quiet' (nonempty_quiet l)).bind fun more r₁ h₁ _ => ?_
    cases more with
    | false => exact .pure only_nil
    | true =>
      have hl₁ := hl.mono h₁
      refine (Sound.value (head_quiet hl₁)).bind fun first r₂ h₂ hfirst => ?_
      refine (hf n r₂ first (h₁.trans h₂) hfirst).bind fun v r₃ h₃ hv => ?_
      refine (Sound.value (tail_quiet (hl₁.mono (h₂.trans h₃)))).bind fun rest r₄ h₄ hrest => ?_
      refine (map_sound n r₄ rest (fun left r' u hr' => hf left r' u
        (h₁.trans (h₂.trans (h₃.trans (h₄.trans hr'))))) hrest).bind fun vs r₅ h₅ hvs => .pure ?_
      exact only_cons.2 ⟨hv.mono (h₄.trans h₅), hvs⟩

theorem callOther_sound {go : Nat → Evaluator Run}
    (hgo : ∀ used, SoundWithin own (goT used) (go used)) (hf : OwnedBy r own f)
    (ha : AllSafe r args) :
    Sound doer r (callOther room goT f args) (callOther room go f args) Safe := by
  cases f with
  | closure scope params body rest locals =>
    refine (Sound.plain (push_plain hf _)).bind fun inner r₁ h₁ hinner => ?_
    refine (Sound.plain (bindParams_plain hinner.has rest params (ha.mono h₁))).bind
      fun _ r₂ h₂ _ => ?_
    exact hgo closureCalls doer r₂ body inner (h₂.within hinner)
  | builtin f => exact .plain (f.run_plain room ha)
  | _ => exact .throw _

theorem call_sound {go : Nat → Evaluator Run} (hgo : ∀ used, SoundWithin own (goT used) (go used))
    (hf : OwnedBy r own (called f args)) (ha : AllSafe r args) :
    Sound doer r (call room goT f args) (call room go f args) Safe := by
  by_cases hmap : ∃ g l, f = .builtin .map ∧ args = [g, l]
  · obtain ⟨g, l, rfl, rfl⟩ := hmap
    refine ListOps.map_sound room r l (fun left r' v hr' hv => ?_) (ha l (by simp))
    exact callOther_sound (fun used => hgo (room - left + used)) (OwnedBy.mono hf hr')
      (by simpa [AllSafe] using hv)
  · have hcall : ∀ {m : Type → Type} [Monad m] [MonadLiftT Run m] (go : Nat → Evaluator m),
        call room go f args = callOther room go f args := by
      intro m _ _ go
      unfold call
      split
      · exact absurd ⟨_, _, rfl, rfl⟩ hmap
      · rfl
    have hcalled : called f args = f := by
      unfold called
      split
      · exact absurd ⟨_, _, rfl, rfl⟩ hmap
      · rfl
    rw [hcall, hcall]
    exact callOther_sound hgo (hcalled ▸ hf) ha

theorem callLexical_sound {go : LexicalEvaluator}
    (hgo : ∀ used, SoundEvaluator (goT used) (go used)) (hf : Safe r f) (ha : AllSafe r args) :
    Sound doer r (call room goT f args) (callLexical room go f args) Safe := by
  have hcalled : Safe r (called f args) := by
    unfold called
    split
    · exact ha _ (by simp)
    · exact hf
  intro w hw
  have hexec : (callLexical room go f args).exec w =
      (call room (fun used => go used ((called f args).owner w.scopes)) f args).exec w := by
    rw [callLexical, ExceptT.exec_bind]
    rfl
  rw [hexec]
  exact call_sound (fun used => hgo used _) (hw.ownedBy hcalled) ha w hw

theorem repeatTimes_sound {body : Traced Value} {body' : Run Value} :
    ∀ (n : Nat) (r : Region) (last : Value),
    (∀ r', r.Sub r' → Sound doer r' body body' Safe) → Safe r last →
    Sound doer r (repeatTimes body n last) (repeatTimes body' n last) Safe
  | 0, _, _, _, hlast => .pure hlast
  | n + 1, r, _, hb, _ => by
    refine (hb r (.refl r)).bind fun v r₁ h₁ hv => ?_
    exact repeatTimes_sound n r₁ v (fun r' hr' => hb r' (h₁.trans hr')) hv

theorem repeatWhile_sound {condition body : Traced Value} {condition' body' : Run Value} :
    ∀ (n : Nat) (r : Region) (last : Value),
    (∀ r', r.Sub r' → Sound doer r' condition condition' Safe) →
    (∀ r', r.Sub r' → Sound doer r' body body' Safe) → Safe r last →
    Sound doer r (repeatWhile condition body n last) (repeatWhile condition' body' n last) Safe
  | 0, _, _, _, _, _ => .throw _
  | n + 1, r, last, hc, hb, hlast => by
    refine (hc r (.refl r)).bind fun c r₁ h₁ _ => ?_
    refine (Sound.quiet' (.ofExcept fun _ _ => trivial)).bind fun more r₂ h₂ _ => ?_
    have h := h₁.trans h₂
    cases more with
    | false => exact .pure (hlast.mono h)
    | true =>
      refine (hb r₂ h).bind fun v r₃ h₃ hv => ?_
      exact repeatWhile_sound n r₃ v (fun r' hr' => hc r' (h.trans (h₃.trans hr')))
        (fun r' hr' => hb r' (h.trans (h₃.trans hr'))) hv

theorem only_ancestor {f : Forest Value Nat} (hr : r.Holds f) : ∀ (n : Nat) {v : Value},
    Safe r v → Gives (Safe r) (ancestor f n v)
  | 0, _, hv => .pure hv
  | n + 1, v, hv => by
    cases v with
    | struct id =>
      rw [ancestor]
      refine only_ancestor hr n ?_
      split
      · rename_i p hp
        exact only_struct.2 (hr.struct_parent id p (only_struct.1 hv) hp)
      · exact only_null
    | _ => exact .throw _

/-- The value that a name means is one that its scope has. -/
theorem gives_lookup {P : Value → Prop} {f : Forest Value Nat} {id : Nat} {x : String}
    (h : ∀ v, f.get? id x = some v → P v) (room : Nat) :
    Gives (fun m => ∀ v, m = some v → P v) (f.lookup room id x) := by
  unfold Forest.lookup
  split
  · exact .throw _
  · exact .pure nofun
  · split
    · rename_i v hv
      refine .pure ?_
      rintro _ ⟨⟩
      exact h v hv
    · exact .throw _

theorem only_member? {f : Forest Value Nat} (hr : r.Holds f) {v : Value} (hv : Safe r v)
    (x : String) : Gives (fun m => ∀ u, m = some u → Safe r u) (v.member? room f x) := by
  unfold Value.member?
  split
  · exact gives_lookup (fun u hu => hr.struct_get? (only_struct.1 hv) hu) room
  · exact .pure fun u hu => only_lookup? hv hu
  · split
    · exact .throw _
    · exact .pure nofun
  · split
    · exact .throw _
    · exact .pure nofun
  · refine .bind' fun hit => ?_
    split
    · exact .throw _
    · exact .pure nofun
  · refine .bind' fun found => ?_
    split
    · dsimp only
      split
      · exact .throw _
      · exact .pure nofun
    · exact .pure nofun
  · exact .throw _

variable {go : LexicalEvaluator}

/-- An import needs nothing of a region: it adds the root that it evaluates in. -/
theorem import_sound (hgo : ∀ used, SoundEvaluator (goT used) (go used)) (own : Option Nat)
    (pos : Pos) (path : String) (scope : Nat) :
    Sound (some (.importFile pos path, scope)) r (evalNode room goT (.importFile pos path) scope)
      (lexicalNode room go own (.importFile pos path) scope) Safe := by
  refine Sound.world.bind fun w r₁ _ _ => ?_
  refine (Sound.quiet' (.ofExcept fun _ _ => trivial)).bind fun e r₂ _ _ => ?_
  refine (addRoot_sound pos path scope).bind fun root r₃ _ hroot => ?_
  refine (Sound.plain (defineBuiltins_plain hroot.1)).bind fun _ r₄ h₄ _ => ?_
  exact hgo 0 none _ r₄ e root (h₄.within hroot.2)

/-- **Evaluation keeps to its region if that of the parts does.** -/
theorem lexicalNode_sound (hgo : ∀ used, SoundEvaluator (goT used) (go used)) (e : Expr)
    (hs : r.Within scope own) :
    Sound (some (e, scope)) r (evalNode room goT e scope) (lexicalNode room go own e scope)
      Safe := by
  have hparts : ∀ {r' : Region} {used : Nat}, r.Sub r' → ∀ part, Sound (some (e, scope)) r'
      (goT used part scope) (go used own part scope) Safe :=
    fun hr' part => hgo _ own _ _ part scope (hr'.within hs)
  have hpart : ∀ part, Sound (some (e, scope)) r (goT 0 part scope) (go 0 own part scope) Safe :=
    fun part => hparts (.refl r) part
  cases e with
  | number => exact .pure (only_float _)
  | bool => exact .pure (only_bool _)
  | string | char => exact .pure (only_text _)
  | lambda => exact .pure (only_closure.2 hs.has)
  | trap => exact .pure only_null
  | array _ es =>
    refine (Sound.mapM es r fun r' hr' e _ => hparts hr' e).bind fun vs r' _ hvs => ?_
    exact .value (fresh_quiet ((Grid.only_ofValues hvs).bind fun _ hg => .pure hg.toValue))
  | dict _ entries =>
    refine (Sound.foldlM (R := fun r pairs => Safe r (.dict pairs)) entries r []
      (fun r₁ pairs entry h₁ hpairs => ?_) (by simp [Safe])).bind fun pairs r' _ hpairs =>
        .pure hpairs
    refine (hparts h₁ entry.1).bind fun key r₂ h₂ hkey => ?_
    refine (hparts (h₁.trans h₂) entry.2).bind fun value r₃ h₃ hvalue => ?_
    cases key.unhashable? with
    | some t => exact .throw _
    | none => exact .pure (only_insert (hpairs.mono (h₂.trans h₃)) (hkey.mono h₃) hvalue)
  | unary _ op a =>
    exact (hpart a).bind fun v r' _ hv => .value (op.apply_quiet hv)
  | binary _ op a b =>
    refine (hpart a).bind fun left r₁ h₁ hleft => ?_
    refine (hparts h₁ b).bind fun right r₂ h₂ hright => ?_
    exact .value (op.apply_quiet (hleft.mono h₂) hright)
  | index _ a b =>
    refine (hpart a).bind fun left r₁ h₁ hleft => ?_
    refine (hparts h₁ b).bind fun right r₂ h₂ _ => ?_
    refine Sound.world.bind fun w r₃ h₃ _ => ?_
    exact .value (part_quiet left (only_index w.scopes (hleft.mono (h₂.trans h₃)) right))
  | assign _ target a =>
    refine (hpart a).bind fun v r₁ h₁ hv => ?_
    refine (Sound.quiet' (.ofExcept fun _ _ => trivial)).bind fun name r₂ h₂ _ => ?_
    have hs₂ := (h₁.trans h₂).has _ hs.has
    refine (Sound.plain (set_plain hs₂ name (hv.mono h₂))).bind fun _ r₃ h₃ _ => .pure ?_
    exact hv.mono (h₂.trans h₃)
  | var p x =>
    refine Sound.world.bind fun w r₁ h₁ hw => ?_
    refine (Sound.ofExcept (Q := fun r₂ v => ∀ u, v = some u → Safe r₂ u)
      (gives_lookup (fun _ hx => hw.code_get? (h₁.has _ hs.has) hx) room)).bind
      fun v r₂ _ hv => ?_
    cases v with
    | some v => exact .pure (hv v rfl)
    | none => exact .throw _
  | lock _ _ body => exact hpart body
  | letIn _ bindings body =>
    refine (Sound.quiet' (.ofExcept fun _ _ => trivial)).bind fun names r₁ h₁ _ => ?_
    refine (Sound.plain (push_plain (h₁.within hs) names)).bind fun inner r₂ h₂ hinner => ?_
    refine (Sound.forIn bindings r₂ PUnit.unit fun r₃ b _ h₃ => ?_).bind fun _ r₃ h₃ _ => ?_
    · exact (hgo 0 own _ r₃ _ inner (h₃.within hinner)).bind fun _ _ _ _ => .pure trivial
    · exact hgo 0 own _ r₃ body inner (h₃.within hinner)
  | sequence _ parts =>
    exact Sound.foldlM (R := Safe) parts r Value.null (fun r' _ e hr' _ => hparts hr' e) only_null
  | loop _ count body =>
    refine (hpart count).bind fun v r₁ h₁ _ => ?_
    refine (Sound.quiet' (.ofExcept fun _ _ => trivial)).bind fun n r₂ h₂ _ => ?_
    exact repeatTimes_sound n.toNat r₂ .null
      (fun r' hr' => hparts (h₁.trans (h₂.trans hr')) body) only_null
  | whileDo _ condition body =>
    exact repeatWhile_sound roundLimit r .null (fun r' hr' => hparts hr' condition)
      (fun r' hr' => hparts hr' body) only_null
  | doWhile _ condition body =>
    refine (hpart body).bind fun first r₁ h₁ hfirst => ?_
    exact repeatWhile_sound roundLimit r₁ first (fun r' hr' => hparts (h₁.trans hr') condition)
      (fun r' hr' => hparts (h₁.trans hr') body) hfirst
  | ifThen _ condition yes no =>
    refine (hpart condition).bind fun c r₁ h₁ _ => ?_
    refine (Sound.quiet' (.ofExcept fun _ _ => trivial)).bind fun t r₂ h₂ _ => ?_
    have h := h₁.trans h₂
    cases t with
    | true => exact hparts h yes
    | false =>
      cases no with
      | some e => exact hparts h e
      | none => exact .pure only_null
  | proc _ params locals body =>
    exact (Sound.plain (openProc_plain hs.has)).bind fun inner r₁ _ hinner =>
      .pure (only_closure.2 hinner)
  | call _ f args =>
    refine (hpart f).bind fun callee r₁ h₁ hcallee => ?_
    refine (Sound.mapM args r₁ fun r' hr' e _ => hparts (h₁.trans hr') e).bind
      fun vs r₂ h₂ hvs => ?_
    exact callLexical_sound hgo (hcallee.mono h₂) hvs
  | struct pos fields parent =>
    have habove : Sound (some (.struct pos fields parent, scope)) r (parent.mapM (goT 0 · scope))
        (parent.mapM (go 0 own · scope)) fun r' above => ∀ v, above = some v → Safe r' v := by
      cases parent with
      | none => exact .pure nofun
      | some e =>
        refine (hpart e).map fun r' v hv => ?_
        rintro _ ⟨⟩
        exact hv
    refine habove.bind fun above r₁ h₁ habove => ?_
    refine (openStruct_sound (h₁.has _ hs.has) habove ?_).bind fun ids r₂ h₂ hids => ?_
    · rintro _ _ _ _ ⟨⟩
      rfl
    refine (Sound.forIn fields r₂ PUnit.unit fun r₃ field _ h₃ => ?_).bind
      fun _ r₃ h₃ _ => .pure (only_struct.2 (h₃.has _ hids.1))
    exact (hgo 0 (some ids.1) _ r₃ _ ids.2 (h₃.within hids.2)).bind fun _ _ _ _ => .pure trivial
  | member p owner name up =>
    refine (hpart owner).bind fun v r₁ h₁ hv => ?_
    refine Sound.world.bind fun w r₂ h₂ hw => ?_
    -- Looking for an ancestor leaves the region as it is, so that it still holds in `w`.
    refine (Sound.ofExcept (Q := fun r₃ u => r₂ = r₃ ∧ Safe r₃ u) fun u hu =>
      ⟨rfl, only_ancestor hw up (hv.mono h₂) u hu⟩).bind ?_
    rintro u _ - ⟨rfl, hu⟩
    refine (Sound.ofExcept (Q := fun r₃ m => ∀ u, m = some u → Safe r₃ u)
      (only_member? hw hu name)).bind fun m r₃ h₃ hm => ?_
    cases m with
    | some m => exact .pure (hm m rfl)
    | none => exact .throw _
  | memberAssign p name value =>
    refine Sound.world.bind fun w r₁ h₁ hw => ?_
    have hs₁ := h₁.within hs
    cases hm : w.scopes.mark? scope with
    | none => exact .throw _
    | some id =>
      rw [← hw.mark? hs₁, hm] at hs₁
      obtain ⟨names, hnames⟩ := hw.owner hs₁.has hm
      refine Sound.world.bind fun u r₂ h₂ hu => ?_
      split
      · rename_i hhas
        have hname : name ∈ names := (hu.has_vars (h₂.members hnames) name).1 hhas
        refine (hparts (h₁.trans h₂) value).bind fun v r₃ h₃ hv => ?_
        have h₁₃ := h₂.trans h₃
        exact (assignMember_sound (h₁₃.within hs₁) (h₁₃.members hnames) hname hv).bind
          fun _ r₄ h₄ _ => .pure (hv.mono h₄)
      · exact .throw _
  | this pos =>
    show Sound _ r _ ((liftM Run.world : Run World) >>= fun _ =>
      pure ((own.map Value.struct).getD .null)) Safe
    refine Sound.world.bind fun w r₁ h₁ hw => ?_
    have hs₁ := h₁.within hs
    rw [hw.mark? hs₁]
    cases own with
    | some id => exact .pure (only_struct.2 (hw.owner hs₁.has (hw.mark? hs₁)))
    | none => exact .pure only_null
  | importFile pos path => exact import_sound hgo own pos path scope

theorem evalNode_sound {go : Nat → Evaluator Run}
    (hgo : ∀ used, SoundEvaluator (goT used) fun _ => go used) (e : Expr)
    (hs : r.Within scope own) :
    Sound (some (e, scope)) r (evalNode room goT e scope) (evalNode room go e scope) Safe := by
  by_cases he : ∃ pos, e = .this pos
  · obtain ⟨pos, rfl⟩ := he
    refine Sound.world.bind fun w r₁ h₁ hw => ?_
    cases hm : w.scopes.mark? scope with
    | some id => exact .pure (only_struct.2 (hw.owner (h₁.within hs).has hm))
    | none => exact .pure only_null
  · rw [← lexicalNode_const room go own scope fun pos h => he ⟨pos, h⟩]
    exact lexicalNode_sound hgo e hs

end

/-! ## The debugger -/

section
variable {doer : Option (Expr × Nat)} {scope : Nat} {evT : Expr → Traced Value}
  {ev : Expr → Run Value}

theorem modifyDebugger_quiet (change : Debugger → Debugger) :
    Quiet (modifyDebugger change) fun _ => True :=
  .change fun _ => rfl

theorem readLine_quiet (prompt : String) : Quiet (readLine prompt) fun _ => True := by
  refine .bind' (.change fun _ => by rfl) fun _ => .read fun w => ?_
  split
  · exact .throw _
  · exact .bind' (.change fun _ => by rfl) fun _ => .pure trivial

theorem showVars_quiet : ∀ vars : Bindings Value, Quiet (showVars vars) fun _ => True
  | [] => .pure trivial
  | (_, v) :: vars => (textOf_quiet v).bind' fun _ => (write_quiet _).bind' fun _ =>
    showVars_quiet vars

theorem dump_quiet (scope : Nat) : Quiet (dump scope) fun _ => True :=
  (write_quiet _).bind' fun _ => .read fun _ => showVars_quiet _

theorem evalIfAny_sound {r : Region} (hev : ∀ e, Sound doer r (evT e) (ev e) Safe) :
    ∀ e : Option Expr, Sound doer r (evalIfAny evT e) (evalIfAny ev e) Safe
  | some e => hev e
  | none => .throw _

theorem obey_sound (pos : Option Pos) : ∀ (n : Nat) (r : Region),
    (∀ r', r.Sub r' → ∀ e, Sound doer r' (evT e) (ev e) Safe) →
    Sound doer r (obey evT pos scope n) (obey ev pos scope n) fun _ _ => True
  | 0, _, _ => .throw _
  | n + 1, r, hev => by
    have hagain : ∀ {r' : Region}, r.Sub r' →
        Sound doer r' (obey evT pos scope n) (obey ev pos scope n) fun _ _ => True :=
      fun hr' => obey_sound pos n _ fun r'' hr'' => hev r'' (hr'.trans hr'')
    refine Sound.world.bind fun w r₁ h₁ _ => ?_
    refine (Sound.forIn w.debugger.watches r₁ PUnit.unit fun r₂ watch _ h₂ => ?_).bind
      fun _ r₂ h₂ _ => ?_
    · refine (evalIfAny_sound (hev r₂ (h₁.trans h₂)) watch.2).bind fun v r₃ _ _ => ?_
      refine (Sound.quiet' (write_quiet _)).bind fun _ _ _ _ => ?_
      refine (Sound.quiet' (textOf_quiet v)).bind fun _ _ _ _ => ?_
      exact (Sound.quiet' (write_quiet _)).bind fun _ _ _ _ => .pure trivial
    have h := h₁.trans h₂
    cases pos with
    | none => exact .throw _
    | some p =>
      refine (Sound.quiet' (readLine_quiet p.prompt)).bind fun line r₃ h₃ _ => ?_
      have h := h.trans h₃
      cases DebugCommand.ofLine line with
      | step => exact .pure trivial
      | go => exact .quiet' (modifyDebugger_quiet _)
      | vars =>
        exact (Sound.quiet' (dump_quiet scope)).bind fun _ _ h₄ _ => hagain (h.trans h₄)
      | watch text =>
        refine (Sound.quiet' (.ofExcept fun _ _ => trivial)).bind fun e r₄ h₄ _ => ?_
        exact (Sound.quiet' (modifyDebugger_quiet _)).bind fun _ _ h₅ _ =>
          hagain (h.trans (h₄.trans h₅))
      | eval text =>
        refine (Sound.quiet' (.ofExcept fun _ _ => trivial)).bind fun e r₄ h₄ _ => ?_
        refine (evalIfAny_sound (hev r₄ (h.trans h₄)) e).bind fun v r₅ h₅ _ => ?_
        refine (Sound.quiet' (textOf_quiet v)).bind fun _ r₆ h₆ _ => ?_
        exact (Sound.quiet' (write_quiet _)).bind fun _ _ h₇ _ =>
          hagain (h.trans (h₄.trans (h₅.trans (h₆.trans h₇))))
      | other => exact hagain h

theorem stop_sound (pos : Option Pos) {r : Region}
    (hev : ∀ r', r.Sub r' → ∀ e, Sound doer r' (evT e) (ev e) Safe) :
    Sound doer r (stop evT pos scope) (stop ev pos scope) fun _ _ => True := by
  refine (Sound.quiet' (modifyDebugger_quiet _)).bind fun _ r₁ h₁ _ => ?_
  refine Sound.world.bind fun _ r₂ h₂ _ => ?_
  refine (obey_sound pos _ r₂ fun r' hr' => hev r' (h₁.trans (h₂.trans hr'))).bind
    fun _ r₃ _ _ => ?_
  exact .quiet' (modifyDebugger_quiet _)

end

/-! ## Programs -/

theorem stopIf_sound {doer : Option (Expr × Nat)} {scope : Nat} {r : Region} {own : Option Nat}
    {goT : Evaluator Traced} {go : Evaluator Run} (hgo : SoundWithin own goT go)
    (hs : r.Within scope own) (pos : Option Pos) (stops : World → Bool) :
    Sound doer r (do if stops (← Run.world) then Run.stop (goT · scope) pos scope)
      (do if stops (← Run.world) then Run.stop (go · scope) pos scope) fun _ _ => True := by
  refine Sound.world.bind fun w r₁ h₁ _ => ?_
  split
  · exact stop_sound pos fun r' hr' e => hgo doer r' e scope ((h₁.trans hr').within hs)
  · exact .pure trivial

/-- **Evaluation keeps to its region.** -/
theorem eval_sound (room : Nat) : SoundEvaluator (evalTraced room) fun _ => eval room := by
  rw [eval_eq_nested]
  refine nested_related (R := fun evT ev => SoundEvaluator evT fun _ => ev)
    (fun _ _ _ _ _ _ => .throw _) ?_ room
  intro room goT go hgo own doer r e scope hs
  refine (Sound.under (d := none) (stopIf_sound (hgo 1 own) hs (some e.pos)
    fun w => w.debugger.stopsAt (some e))).bind fun _ r₁ h₁ _ => ?_
  exact (evalNode_sound hgo e (h₁.within hs)).under

/-- **So it does if `this` is handed down.** -/
theorem evalLexical_sound (room : Nat) : SoundEvaluator (evalTraced room) (evalLexical room) := by
  refine nested_related (R := SoundEvaluator) (fun _ _ _ _ _ _ => .throw _) ?_ room
  intro room goT go hgo own doer r e scope hs
  refine (Sound.under (d := none) (stopIf_sound (hgo 1 own) hs (some e.pos)
    fun w => w.debugger.stopsAt (some e))).bind fun _ r₁ h₁ _ => ?_
  exact (lexicalNode_sound hgo e (h₁.within hs)).under

section
variable {scope : Nat} {r : Region}

theorem evalProgram_sound (hs : r.Has (.code scope)) (e : Option Expr) :
    Sound none r (evalProgramTraced e scope) (evalProgram e scope) Safe := by
  obtain ⟨own, hs⟩ := hs
  cases e with
  | some e => exact eval_sound depthLimit own none r e scope hs
  | none =>
    rw [evalProgram_none]
    exact (Sound.under (d := none) (stopIf_sound (eval_sound _ own) hs none
      fun w => w.debugger.stopsAt none)).bind fun _ _ _ _ => .throw _

theorem evalProgramLexical_sound (hs : r.Within scope none) (e : Option Expr) :
    Sound none r (evalProgramTraced e scope) (evalProgramLexical e scope) Safe := by
  cases e with
  | some e => exact evalLexical_sound depthLimit none none r e scope hs
  | none =>
    exact (Sound.under (d := none) (stopIf_sound (evalLexical_sound _ none) hs none
      fun w => w.debugger.stopsAt none)).bind fun _ _ _ _ => .throw _

end

end ExprLang
