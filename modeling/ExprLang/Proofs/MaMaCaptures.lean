/-
  The variables that a function captures.

  A function captures the variables that are listed for it, and its body is compiled with these and
  its parameters on top of all that is visible around the function.  What is listed are the
  variables that are free outside of the expressions that `local`s bind; there is no list at all if
  an alternative without a second branch is met.

  * `Listed x e`, `Meets e`: what `freeVars` sees of an expression (`freeVars_lists`);
  * `Gen.Mirrors`: two generators do the same, with different global variables;
    `codeBy_mirrors`: code depends on the slots of free variables only;
  * `Emits.hasSlot`: and it does depend on all of them;
  * `listed_exactly_iff`: so the variables are listed exactly if all free ones are also free outside
    of bound expressions, and then and only then the body of a function sees nothing but the
    parameters, what is captured, and its own variables.
-/
import ExprLang.Proofs.MaMaSound

namespace ExprLang.MaMa

/-! ## What is seen of an expression -/

/-- Expressions made of the nodes that the machine has code for. -/
inductive Functional : Expr → Prop where
  | number {p text} : Functional (.number p text)
  | unary {p op a} (ha : Functional a) : Functional (.unary p op a)
  | binary {p op a b} (ha : Functional a) (hb : Functional b) : Functional (.binary p op a b)
  | var {p x} : Functional (.var p x)
  | ifThen {p c a b} (hc : Functional c) (ha : Functional a) (hb : ∀ d ∈ b, Functional d) :
      Functional (.ifThen p c a b)
  | letIn {p bs a} (hx : ∀ b ∈ bs, ∃ q x, b.target = .var q x)
      (hb : ∀ b ∈ bs, Functional b.value) (ha : Functional a) : Functional (.letIn p bs a)
  | lambda {p params a rest} (ha : Functional a) : Functional (.lambda p params a rest)
  | call {p f args} (hf : Functional f) (ha : ∀ a ∈ args, Functional a) :
      Functional (.call p f args)

/-- The variable `x` is free outside of the expressions that `local`s bind. -/
@[mk_iff] inductive Listed (x : String) : Expr → Prop where
  | unary {p op a} (h : Listed x a) : Listed x (.unary p op a)
  | left {p op a b} (h : Listed x a) : Listed x (.binary p op a b)
  | right {p op a b} (h : Listed x b) : Listed x (.binary p op a b)
  | var {p} : Listed x (.var p x)
  | condition {p c a b} (h : Listed x c) : Listed x (.ifThen p c a b)
  | yes {p c a b} (h : Listed x a) : Listed x (.ifThen p c a b)
  | no {p c a b} (h : Listed x b) : Listed x (.ifThen p c a (some b))
  | body {p bs a} (hx : x ∉ boundNames bs) (h : Listed x a) : Listed x (.letIn p bs a)
  | lambda {p params a rest} (hx : x ∉ params) (h : Listed x a) :
      Listed x (.lambda p params a rest)
  | callee {p f args} (h : Listed x f) : Listed x (.call p f args)
  | argument {p f args a} (ha : a ∈ args) (h : Listed x a) : Listed x (.call p f args)

/-- An alternative without a second branch stands outside of the expressions that `local`s bind. -/
@[mk_iff] inductive Meets : Expr → Prop where
  | here {p c a} : Meets (.ifThen p c a none)
  | unary {p op a} (h : Meets a) : Meets (.unary p op a)
  | left {p op a b} (h : Meets a) : Meets (.binary p op a b)
  | right {p op a b} (h : Meets b) : Meets (.binary p op a b)
  | condition {p c a b} (h : Meets c) : Meets (.ifThen p c a b)
  | yes {p c a b} (h : Meets a) : Meets (.ifThen p c a b)
  | no {p c a b} (h : Meets b) : Meets (.ifThen p c a (some b))
  | body {p bs a} (h : Meets a) : Meets (.letIn p bs a)
  | lambda {p params a rest} (h : Meets a) : Meets (.lambda p params a rest)
  | callee {p f args} (h : Meets f) : Meets (.call p f args)
  | argument {p f args a} (ha : a ∈ args) (h : Meets a) : Meets (.call p f args)

variable {x : String} {e : Expr}

theorem Listed.free (h : Listed x e) : Free x e := by
  induction h with
  | unary _ ih => exact .unary ih
  | left _ ih => exact .left ih
  | right _ ih => exact .right ih
  | var => exact .var
  | condition _ ih => exact .condition ih
  | yes _ ih => exact .yes ih
  | no _ ih => exact .no ih
  | body hx _ ih => exact .body hx ih
  | lambda hx _ ih => exact .lambda hx ih
  | callee _ ih => exact .callee ih
  | argument ha _ ih => exact .argument ha ih

/-! ## What `freeVars` gives -/

/-- What `freeVars` and the functions beside it may give: the variables that `Q` holds of, or, if
    something is missing, the fault that says so. -/
def Lists (missing : Prop) (Q : String → Prop) (r : Except GenFault (List String)) : Prop :=
  (missing ∧ r = .error .missing) ∨ (¬ missing ∧ ∃ names, r = .ok names ∧ ∀ x, x ∈ names ↔ Q x)

section
variable {m m' n : Prop} {Q Q' R : String → Prop} {r r' : Except GenFault (List String)}

theorem Lists.congr (h : Lists m Q r) (hm : n ↔ m) (hQ : ∀ x, R x ↔ Q x) : Lists n R r := by
  obtain rfl : n = m := propext hm
  obtain rfl : R = Q := funext fun x => propext (hQ x)
  exact h

theorem Lists.append (h : Lists m Q r) (h' : Lists m' Q' r') :
    Lists (m ∨ m') (fun x => Q x ∨ Q' x) (do return (← r) ++ (← r')) := by
  rcases h with ⟨hm, rfl⟩ | ⟨hm, ns, rfl, hns⟩
  · exact .inl ⟨.inl hm, rfl⟩
  · rcases h' with ⟨hm', rfl⟩ | ⟨hm', ms, rfl, hms⟩
    · exact .inl ⟨.inr hm', rfl⟩
    · exact .inr ⟨not_or.2 ⟨hm, hm'⟩, ns ++ ms, rfl, fun x => by simp [hns, hms]⟩

theorem Lists.filter (h : Lists m Q r) (names : List String) :
    Lists m (fun x => x ∉ names ∧ Q x) (do return (← r).filter (· ∉ names)) := by
  rcases h with ⟨hm, rfl⟩ | ⟨hm, ns, rfl, hns⟩
  · exact .inl ⟨hm, rfl⟩
  · exact .inr ⟨hm, _, rfl, fun x => by simp [hns, and_comm]⟩

end

theorem bindingNames_ok : ∀ {bs : List (Binding Expr)}, (∀ b ∈ bs, ∃ q x, b.target = .var q x) →
    bindingNames bs = .ok (boundNames bs)
  | [], _ => rfl
  | ⟨_, t, _⟩ :: bs, h => by
    obtain ⟨⟨q, x, rfl⟩, hbs⟩ := List.forall_mem_cons.1 h
    rw [bindingNames, bindingNames_ok hbs]
    rfl

theorem freeVarsList_lists : ∀ {es : List Expr},
    (∀ a ∈ es, Lists (Meets a) (Listed · a) (freeVars a)) →
    Lists (∃ a ∈ es, Meets a) (fun x => ∃ a ∈ es, Listed x a) (freeVarsList es)
  | [], _ => .inr ⟨by simp, [], rfl, by simp⟩
  | a :: es, h => by
    obtain ⟨ha, hes⟩ := List.forall_mem_cons.1 h
    exact (ha.append (freeVarsList_lists hes)).congr (by simp) (by simp)

/-- **The variables that are free outside of bound expressions are listed.** -/
theorem freeVars_lists (he : Functional e) : Lists (Meets e) (Listed · e) (freeVars e) := by
  induction he with
  | number =>
    exact .inr ⟨by rw [meets_iff]; simp, [], rfl, fun x => by dsimp only; rw [listed_iff]; simp⟩
  | unary _ ih => exact ih.congr (by rw [meets_iff]; simp) fun x => by rw [listed_iff]; simp
  | binary _ _ iha ihb =>
    exact (iha.append ihb).congr (by rw [meets_iff]; simp) fun x => by rw [listed_iff]; simp
  | var =>
    exact .inr ⟨by rw [meets_iff]; simp, [_], rfl, fun x => by
      dsimp only
      rw [listed_iff]
      simp [eq_comm]⟩
  | @ifThen p c a b _ _ _ ihc iha ihb =>
    have hb : Lists (b = none ∨ ∃ d ∈ b, Meets d) (fun x => ∃ d ∈ b, Listed x d)
        (freeVarsOption b) := by
      cases b with
      | none => exact .inl ⟨.inl rfl, rfl⟩
      | some d => exact (ihb d rfl).congr (by simp) (by simp)
    have hr : freeVars (.ifThen p c a b) = (do
        return (← (do return (← freeVars c) ++ (← freeVars a))) ++ (← freeVarsOption b)) := by
      simp only [freeVars, bind_assoc, pure_bind]
    rw [hr]
    refine ((ihc.append iha).append hb).congr ?_ fun x => ?_
    · rw [meets_iff]; simp; tauto
    · rw [listed_iff]; simp; tauto
  | @letIn p bs a hx _ _ _ iha =>
    have h := iha.filter (boundNames bs)
    refine Lists.congr ?_ (m := Meets a) (Q := fun x => x ∉ boundNames bs ∧ Listed x a)
      (by rw [meets_iff]; simp) fun x => by rw [listed_iff]; simp
    rw [freeVars, bindingNames_ok hx]
    exact h
  | lambda _ ih =>
    exact (ih.filter _).congr (by rw [meets_iff]; simp) fun x => by rw [listed_iff]; simp
  | call _ _ ihf iha =>
    exact (ihf.append (freeVarsList_lists iha)).congr (by rw [meets_iff]; simp)
      fun x => by rw [listed_iff]; simp

theorem mem_freeVars (he : Functional e) {names : List String} (h : freeVars e = .ok names) :
    x ∈ names ↔ Listed x e := by
  rcases freeVars_lists he with ⟨-, hr⟩ | ⟨-, names', hr, hn⟩
  · cases h.symm.trans hr
  · cases h.symm.trans hr
    exact hn x

/-! ## What code depends on -/

section
variable {α β : Type} {G G' : Slots}

/-- Where `g` ends well with the global variables `G`, `g'` does the same with `G'`, and both leave
    them as they are. -/
def Mirrors (G G' : Slots) (g g' : Gen α) : Prop :=
  ∀ ⦃s a t⦄, s.globals = G → g.Gives s a t →
    t.globals = G ∧ g'.Gives { s with globals := G' } a { t with globals := G' }

namespace Mirrors

theorem pure (a : α) : Mirrors G G' (Pure.pure a) (Pure.pure a) := by
  intro s b t hs h
  obtain ⟨rfl, rfl⟩ := Gen.gives_pure.1 h
  exact ⟨hs, Gen.gives_pure.2 ⟨rfl, rfl⟩⟩

theorem throw {f : GenFault} {g : Gen α} : Mirrors G G' (MonadExcept.throw f) g :=
  fun _ _ _ _ h => absurd h Gen.gives_throw

theorem bind {g g' : Gen α} {k k' : α → Gen β} (hg : Mirrors G G' g g')
    (hk : ∀ a, Mirrors G G' (k a) (k' a)) : Mirrors G G' (g >>= k) (g' >>= k') := by
  intro s b t hs h
  obtain ⟨a, u, ha, hb⟩ := Gen.gives_bind.1 h
  obtain ⟨hu, ha'⟩ := hg hs ha
  obtain ⟨ht, hb'⟩ := hk a hu hb
  exact ⟨ht, Gen.gives_bind.2 ⟨a, _, ha', hb'⟩⟩

theorem lift_bind {r : Except GenFault α} {k k' : α → Gen β}
    (hk : ∀ a, r = .ok a → Mirrors G G' (k a) (k' a)) :
    Mirrors G G' (liftM r >>= k) (liftM r >>= k') := by
  intro s b t hs h
  obtain ⟨a, u, ha, hb⟩ := Gen.gives_bind.1 h
  obtain ⟨rfl, rfl⟩ := Gen.gives_lift.1 ha
  obtain ⟨ht, hb'⟩ := hk a rfl hs hb
  exact ⟨ht, Gen.gives_bind.2 ⟨a, _, Gen.gives_lift.2 ⟨rfl, rfl⟩, hb'⟩⟩

theorem freshLabel (name : String) :
    Mirrors G G' (ExprLang.freshLabel name) (ExprLang.freshLabel name) := by
  intro s l t hs h
  obtain ⟨rfl, rfl⟩ := freshLabel_gives.1 h
  exact ⟨hs, freshLabel_gives.2 ⟨rfl, rfl⟩⟩

end Mirrors

variable {scope scope' : Slots} {kp : Int} {want : Want} {order : CaptureOrder}

/-- The variable has the same slot, or none, in both surroundings. -/
def SameSlot (scope G scope' G' : Slots) (x : String) : Prop :=
  (scope.lookup x).or (G.lookup x) = (scope'.lookup x).or (G'.lookup x)

/-- Two surroundings that agree on a variable still do with further slots before them. -/
theorem SameSlot.inner (inner : Slots) (h : inner.lookup x = none → SameSlot scope G scope' G' x) :
    SameSlot (inner ++ scope) G (inner ++ scope') G' x := by
  rw [SameSlot, List.lookup_append, List.lookup_append]
  cases hi : inner.lookup x with
  | some slot => rfl
  | none => simpa [hi, SameSlot] using h hi

theorem variable_mirrors (h : SameSlot scope G scope' G' x) :
    Mirrors G G' (variable_ scope kp x) (variable_ scope' kp x) := by
  have hslot : Mirrors G G' (slot? scope x) (slot? scope' x) := by
    intro s r t hs hr
    obtain ⟨rfl, rfl⟩ := slot?_gives.1 hr
    exact ⟨hs, slot?_gives.2 ⟨by rw [hs]; exact h.symm, rfl⟩⟩
  refine hslot.bind fun r => ?_
  rcases r with _ | ⟨_ | _ | _, a, size⟩
  · exact .throw
  · exact .pure _
  · exact .throw
  · exact .pure _

theorem variableCodes_mirrors : ∀ {xs : List String} {kp : Int},
    (∀ x ∈ xs, SameSlot scope G scope' G' x) →
    Mirrors G G' (variableCodes scope kp xs) (variableCodes scope' kp xs)
  | [], _, _ => .pure _
  | _ :: _, _, h => by
    obtain ⟨hx, hxs⟩ := List.forall_mem_cons.1 h
    exact (variable_mirrors hx).bind fun _ => (variableCodes_mirrors hxs).bind fun _ => .pure _

def CodeMirrors (order : CaptureOrder) (G G' : Slots) (e : Expr) : Prop :=
  ∀ ⦃want scope scope' kp⦄, (∀ x, Free x e → SameSlot scope G scope' G' x) →
    Mirrors G G' (codeBy order want scope kp e) (codeBy order want scope' kp e)

theorem argumentsBy_mirrors : ∀ {es : List Expr} {kp : Int},
    (∀ a ∈ es, CodeMirrors order G G' a) →
    (∀ a ∈ es, ∀ x, Free x a → SameSlot scope G scope' G' x) →
    Mirrors G G' (argumentsBy order scope kp es) (argumentsBy order scope' kp es)
  | [], _, _, _ => .pure _
  | _ :: _, _, h, hx => by
    obtain ⟨ha, hes⟩ := List.forall_mem_cons.1 h
    obtain ⟨hxa, hxes⟩ := List.forall_mem_cons.1 hx
    exact (argumentsBy_mirrors hes hxes).bind fun _ => (ha hxa).bind fun _ => .pure _

theorem initialiseBy_mirrors : ∀ {bs : List (Binding Expr)} {kp : Int},
    (∀ b ∈ bs, CodeMirrors order G G' b.value) →
    (∀ b ∈ bs, ∀ x, Free x b.value → SameSlot scope G scope' G' x) →
    Mirrors G G' (initialiseBy order scope kp bs) (initialiseBy order scope' kp bs)
  | [], _, _, _ => .pure _
  | ⟨_, _, _⟩ :: _, _, h, hx => by
    obtain ⟨ha, hbs⟩ := List.forall_mem_cons.1 h
    obtain ⟨hxa, hxbs⟩ := List.forall_mem_cons.1 hx
    exact (ha hxa).bind fun _ => (initialiseBy_mirrors hbs hxbs).bind fun _ => .pure _

theorem lookup_slotsFrom_eq_none {s : Storage} {a step : Int} {names : List String}
    {slots : Slots} : (slotsFrom s a step names slots).lookup x = none ↔
      x ∉ names ∧ slots.lookup x = none := by
  simp [lookup_slotsFrom, lastIndex?_eq_none]

theorem lookup_functionSlots_eq_none {captured params : List String} :
    (functionSlots captured params).lookup x = none ↔ x ∉ params ∧ x ∉ captured := by
  rw [functionSlots, lookup_slotsFrom_eq_none, lookup_slotsFrom_eq_none]
  simp

/-- **The code for an expression depends on the slots of its free variables only.** -/
theorem codeBy_mirrors (ho : order.Lists) (he : Functional e) : CodeMirrors order G G' e := by
  induction he with
  | number => intro want scope scope' kp _; simp only [codeBy]; exact .pure _
  | unary _ ih =>
    intro want scope scope' kp h
    simp only [codeBy]
    exact (ih fun x hx => h x (.unary hx)).bind fun _ => .lift_bind fun _ _ => .pure _
  | binary _ _ iha ihb =>
    intro want scope scope' kp h
    simp only [codeBy]
    exact (iha fun x hx => h x (.left hx)).bind fun _ => (ihb fun x hx => h x (.right hx)).bind
      fun _ => .lift_bind fun _ _ => .pure _
  | var =>
    intro want scope scope' kp h
    simp only [codeBy]
    exact (variable_mirrors (h _ .var)).bind fun _ => .pure _
  | @ifThen p c a b _ _ _ ihc iha ihb =>
    intro want scope scope' kp h
    have hb : Mirrors G G' (codeOrZeroBy order want scope kp b)
        (codeOrZeroBy order want scope' kp b) := by
      cases b with
      | none => exact .pure _
      | some d => exact ihb d rfl fun x hx => h x (.no hx)
    simp only [codeBy]
    exact (Mirrors.freshLabel _).bind fun _ => (Mirrors.freshLabel _).bind fun _ =>
      (Mirrors.freshLabel _).bind fun _ => (Mirrors.freshLabel _).bind fun _ =>
      (ihc fun x hx => h x (.condition hx)).bind fun _ => (iha fun x hx => h x (.yes hx)).bind
      fun _ => hb.bind fun _ => .pure _
  | @letIn p bs a hx _ _ ihb iha =>
    intro want scope scope' kp h
    have hin : ∀ x, (x ∉ boundNames bs → Free x (.letIn p bs a)) →
        SameSlot (slotsFrom .local_ (kp + 1) 1 (boundNames bs) [] ++ scope) G
          (slotsFrom .local_ (kp + 1) 1 (boundNames bs) [] ++ scope') G' x :=
      fun x hfree => .inner _ fun hl => h x (hfree (lookup_slotsFrom_eq_none.1 hl).1)
    simp only [codeBy]
    refine .lift_bind fun names hnames => ?_
    obtain rfl := bindingNames_eq hnames
    exact (initialiseBy_mirrors ihb fun b hb x hfree => hin x fun hx => .binding hx hb hfree).bind
      fun _ => (iha fun x hfree => hin x fun hx => .body hx hfree).bind fun _ => .pure _
  | @lambda p params a rest ha ih =>
    intro want scope scope' kp h
    cases want with
    | basic => simp only [codeBy]; exact .throw
    | reference =>
      simp only [codeBy]
      refine (Mirrors.freshLabel _).bind fun fn => (Mirrors.freshLabel _).bind fun _ =>
        .lift_bind fun names hnames => ?_
      refine (variableCodes_mirrors fun x hx => h x ?_).bind fun _ =>
        (ih fun x hx => .inner _ fun hl => h x (.lambda ?_ hx)).bind fun _ => .pure _
      · exact (mem_freeVars (.lambda ha) hnames).1 ((ho _ _ _).1 hx) |>.free
      · exact (lookup_functionSlots_eq_none.1 hl).1
  | call _ _ ihf iha =>
    intro want scope scope' kp h
    simp only [codeBy]
    exact (Mirrors.freshLabel _).bind fun _ =>
      (argumentsBy_mirrors iha fun a ha x hx => h x (.argument ha hx)).bind fun _ =>
      (ihf fun x hx => h x (.callee hx)).bind fun _ => .pure _

/-! ## What code needs -/

def HasSlot (scope G : Slots) (x : String) : Prop :=
  ((scope.lookup x).or (G.lookup x)).isSome

/-- A variable without a slot among the inner ones has one outside. -/
theorem HasSlot.outer {inner : Slots} (h : HasSlot (inner ++ scope) G x)
    (hx : inner.lookup x = none) : HasSlot scope G x := by
  rwa [HasSlot, List.lookup_append, hx, Option.none_or] at h

/-- **The code for an expression needs a slot for each of its free variables.** -/
theorem Emits.hasSlot {piece : Piece} {S : List Spot} (h : Emits order G piece S) :
    ∀ x, piece.Uses x → HasSlot piece.scope G x := by
  induction h with
  | missing => exact fun _ => False.elim
  | number =>
    intro x hx
    cases hx
  | unary _ ih =>
    intro x hx
    cases hx with
    | unary h => exact ih x h
  | binary _ _ iha ihb =>
    intro x hx
    cases hx with
    | left h => exact iha x h
    | right h => exact ihb x h
  | var _ ih =>
    intro x hx
    cases hx
    exact ih _ (.head _)
  | ifThen _ _ _ _ _ _ _ ihe iha ihb =>
    intro x hx
    cases hx with
    | condition h => exact ihe x h
    | yes h => exact iha x h
    | no h => exact ihb x h
  | letIn _ _ ihi iha =>
    intro x hx
    cases hx with
    | binding hx hb h => exact (ihi x ⟨_, hb, h⟩).outer (lookup_slotsFrom_eq_none.2 ⟨hx, rfl⟩)
    | body hx h => exact (iha x h).outer (lookup_slotsFrom_eq_none.2 ⟨hx, rfl⟩)
  | call _ _ _ ihargs ihe =>
    intro x hx
    cases hx with
    | callee h => exact ihe x h
    | argument ha h => exact ihargs x ⟨_, ha, h⟩
  | @lambda fn _ _ _ _ _ _ _ names _ _ _ _ _ ihx iha =>
    intro x hx
    cases hx with
    | lambda hx h =>
      by_cases hc : x ∈ order fn names
      · exact ihx x hc
      · exact (iha x h).outer (lookup_functionSlots_eq_none.2 ⟨hx, hc⟩)
  | noArgument | noBinding => exact fun _ ⟨_, h, _⟩ => absurd h List.not_mem_nil
  | noVariable => exact fun _ h => absurd h List.not_mem_nil
  | argument _ _ ihs iha =>
    rintro x ⟨a, ha, hx⟩
    rcases List.mem_cons.1 ha with rfl | ha
    · exact iha x hx
    · exact ihs x ⟨a, ha, hx⟩
  | binding _ _ _ iha ihs =>
    rintro x ⟨b, hb, hx⟩
    rcases List.mem_cons.1 hb with rfl | hb
    · exact iha x hx
    · exact ihs x ⟨b, hb, hx⟩
  | variable_ hslot _ ihs =>
    intro y hy
    rcases List.mem_cons.1 hy with rfl | hy
    · exact Option.isSome_iff_exists.2 ⟨_, hslot⟩
    · exact ihs y hy

/-! ## Functions -/

/-- The code `c` of the body `e` of a function is the same whatever is visible around it: each of
    its variables is a parameter, is captured, or is bound in the body. -/
def Isolated (order : CaptureOrder) (captured params : List String) (e : Expr) (s : GenState)
    (c : List Instr) (t : GenState) : Prop :=
  ∀ scope globals, (codeBy order .reference (functionSlots captured params ++ scope) 0 e).Gives
    { s with globals := globals } c { t with globals := globals }

theorem isolated_iff (ho : order.Lists) (he : Functional e) {captured params : List String}
    {s t : GenState} {c : List Instr}
    (h : (codeBy order .reference (functionSlots captured params ++ scope) 0 e).Gives s c t) :
    Isolated order captured params e s c t ↔ ∀ x, Free x e → x ∈ params ∨ x ∈ captured := by
  constructor
  · intro hi x hx
    obtain ⟨S, hS, -⟩ := (codeOrZeroBy_laid order (some e) [] (hi [] [])).spots
    have hs : HasSlot (functionSlots captured params ++ []) [] x := hS.hasSlot x hx
    by_contra hn
    have hl := lookup_functionSlots_eq_none.2 (not_or.1 hn)
    simp [HasSlot, hl] at hs
  · intro hx scope' globals
    refine (codeBy_mirrors ho he (fun x hfree => .inner _ fun hl => ?_) rfl h).2
    exact absurd (hx x hfree) (not_or.2 (lookup_functionSlots_eq_none.1 hl))

theorem freeVarsExact_iff (he : Functional e) :
    FreeVarsExact e ↔ ¬ Meets e ∧ ∀ x, Free x e → Listed x e := by
  constructor
  · rintro ⟨names, hnames, hfree⟩
    refine ⟨fun hm => ?_, fun x hx => (mem_freeVars he hnames).1 ((hfree x).2 hx)⟩
    rcases freeVars_lists he with ⟨-, hr⟩ | ⟨hn, -⟩
    · cases hnames.symm.trans hr
    · exact hn hm
  · rintro ⟨hm, hfree⟩
    rcases freeVars_lists he with ⟨hm', -⟩ | ⟨-, names, hnames, hl⟩
    · exact absurd hm' hm
    · exact ⟨names, hnames, fun x =>
        ⟨fun hx => ((hl x).1 hx).free, fun hx => (hl x).2 (hfree x hx)⟩⟩

/-- **When the free variables of an expression are listed exactly.**  There is no list if an
alternative without a second branch is met; else it holds what is free outside of the expressions
that `local`s bind.  So it is exact just if all that is free is also free there.  For a function
with this body that is compiled, and only for such a one, the code of the body then sees nothing but
the parameters, what is captured and what the body itself binds. -/
theorem listed_exactly_iff (he : Functional e) :
    (Meets e → freeVars e = .error .missing) ∧
    (¬ Meets e → ∃ names, freeVars e = .ok names ∧ ∀ x, x ∈ names ↔ Listed x e) ∧
    (FreeVarsExact e ↔ ¬ Meets e ∧ ∀ x, Free x e → Listed x e) ∧
    ∀ {order : CaptureOrder}, order.Lists → ∀ {scope : Slots} {kp : Int} {p : Pos}
      {params : List String} {rest : Bool} {s t : GenState} {c : List Instr},
      (codeBy order .reference scope kp (.lambda p params e rest)).Gives s c t →
      ∃ fn names s' body before after,
        c = before ++ .label (.text fn) :: body ++ .popenv :: after ∧
        freeVars (.lambda p params e rest) = .ok names ∧
        (codeBy order .reference (functionSlots (order fn names) params ++ scope) 0 e).Gives
          s' body t ∧
        (Isolated order (order fn names) params e s' body t ↔
          FreeVarsExact (.lambda p params e rest)) := by
  refine ⟨fun hm => ?_, fun hm => ?_, freeVarsExact_iff he, ?_⟩
  · rcases freeVars_lists he with ⟨-, hr⟩ | ⟨hn, -⟩
    · exact hr
    · exact absurd hm hn
  · rcases freeVars_lists he with ⟨hm', -⟩ | ⟨-, h⟩
    · exact absurd hm' hm
    · exact h
  intro order ho scope kp p params rest s t c hc
  obtain ⟨-, fn, af, s', names, cx, body, -, hnames, -, hbody, rfl⟩ := codeBy_lambda_gives hc
  have hl : Functional (.lambda p params e rest) := .lambda he
  refine ⟨fn, names, s', body, cx ++ [.mkvec (.int (order fn names).length), .mkfunval (.text fn),
    .jump (.text af)], [.label (.text af)], by simp, hnames, hbody, ?_⟩
  rw [isolated_iff ho he hbody]
  constructor
  · intro h
    refine ⟨names, hnames, fun x => ⟨fun hx => ((mem_freeVars hl hnames).1 hx).free, ?_⟩⟩
    intro hx
    cases hx with | lambda hp hfree =>
    exact (ho _ _ _).1 ((h x hfree).resolve_left hp)
  · rintro ⟨names', hnames', hfree⟩ x hx
    cases hnames.symm.trans hnames'
    refine or_iff_not_imp_left.2 fun hp => (ho _ _ _).2 ((hfree x).2 (.lambda hp hx))

end

/-! ### A variable that is missed

In `lambda (x) -> local a = y in a` the variable `y` is not captured.  Where `y` is a local
variable, the body takes the slot for one of its own: it reads `a`. -/

/-- The body `local a = y in a`. -/
abbrev missingBody : Expr :=
  .letIn sumPos [⟨sumPos, .var sumPos "a", sumVar "y"⟩] (sumVar "a")

theorem listed_exactly_iff_missing :
    Functional missingBody ∧ freeVars missingBody = .ok [] ∧ ¬ FreeVarsExact missingBody ∧
    ∃ s body t, (codeBy ascending .reference
        (functionSlots [] ["x"] ++ [("y", ⟨.local_, 1, none⟩)]) 0 missingBody).Gives s body t ∧
      body = [.alloc (.int 1), .pushloc (.int 0), .patch (.int 1), .pushloc (.int 0),
        .slide (.int 1)] ∧
      ¬ Isolated ascending [] ["x"] missingBody s body t := by
  have hfun : Functional missingBody :=
    .letIn (List.forall_mem_singleton.2 ⟨_, _, rfl⟩) (List.forall_mem_singleton.2 .var) .var
  have hfree : Free "y" missingBody := .binding (by decide) (List.mem_singleton.2 rfl) .var
  have hlisted : ¬ Listed "y" missingBody := by
    intro h
    cases h with | body _ h =>
    rw [listed_iff] at h
    simp at h
  obtain ⟨-, -, hexact, hcode⟩ := listed_exactly_iff hfun
  have hno : ¬ FreeVarsExact missingBody := fun h => hlisted ((hexact.1 h).2 _ hfree)
  refine ⟨hfun, rfl, hno, ?_⟩
  obtain ⟨fn, names, s', body, before, after, hc, hnames, hbody, hiso⟩ := hcode ascending_lists
    (show (codeBy ascending .reference [("y", ⟨.local_, 1, none⟩)] 1
      (.lambda sumPos ["x"] missingBody false)).Gives .initial _ _ from rfl)
  obtain rfl : [] = names := Except.ok.inj hnames
  have hgives : (codeBy ascending .reference
      (functionSlots [] ["x"] ++ [("y", ⟨.local_, 1, none⟩)]) 0 missingBody).Gives s'
      [.alloc (.int 1), .pushloc (.int 0), .patch (.int 1), .pushloc (.int 0), .slide (.int 1)]
      s' := rfl
  cases hbody.symm.trans hgives
  refine ⟨_, _, _, hgives, rfl, fun h => hlisted ?_⟩
  obtain ⟨names, hnames, hx⟩ := hiso.1 h
  cases hnames
  exact absurd ((hx "y").2 (.lambda (by decide) hfree)) (by decide)

end ExprLang.MaMa
