/-
  MaMa code does what the expression says.

  The simulation `codeBy_runs` is by recursion on the evaluation, with one lemma for each rule.  The
  machine evaluates the arguments of a call from the last to the first and the function after them,
  which gives the same values as the order of the rules, because no evaluation changes the variables
  of another one.

  `compile_mama_preserves_meaning` is the statement about compiled expressions.
-/
import ExprLang.Code.Compile
import ExprLang.Proofs.MaMaLayout
import ExprLang.Proofs.MaMaVariables

namespace ExprLang.MaMa

variable {a b e : Expr} {x : String}

def CaptureOrder.Lists (order : CaptureOrder) : Prop := ∀ l names x, x ∈ order l names ↔ x ∈ names

/-! ## What code for parts does -/

variable (P : List Instr) (order : CaptureOrder)

/-- Code for an expression does what this evaluation says: it pushes the value, as a word or as a
reference. -/
def CodeRuns (f : Scopes) (id : Nat) (e : Expr) (v : Val) (f' : Scopes) : Prop :=
  ∀ ⦃V : View⦄ ⦃m : State⦄ ⦃want : Want⦄ ⦃scope : Slots⦄ ⦃kp : Int⦄ ⦃s t : GenState⦄
    ⦃c : List Instr⦄, V.scopes = f → (codeBy order want scope kp e).Gives s c t → Admissible e →
    Placed P m.pc c → Ready P order V m id scope kp (Free · e) →
    (want = .basic → ∃ n, v = .int n) →
    ∃ W m', Runs P m m' ∧ m'.pc = m.pc + c.length ∧ W.scopes = f' ∧ Leaves P order want V m v W m'

/-- Code for arguments pushes references to their values, the first one on top. -/
def ArgumentsRun (f : Scopes) (id : Nat) (es : List Expr) (vs : List Val) (f' : Scopes) : Prop :=
  ∀ ⦃V : View⦄ ⦃m : State⦄ ⦃scope : Slots⦄ ⦃kp : Int⦄ ⦃s t : GenState⦄ ⦃c : List Instr⦄,
    V.scopes = f → (argumentsBy order scope kp es).Gives s c t → (∀ a ∈ es, Admissible a) →
    Placed P m.pc c → Ready P order V m id scope kp (fun x => ∃ a ∈ es, Free x a) →
    ∃ W m' ws, Runs P m m' ∧ m'.pc = m.pc + c.length ∧ W.scopes = f' ∧
      Advances P order V m.fresh W m' ∧ m'.stack = ws ++ m.stack ∧ m'.fp = m.fp ∧ m'.gp = m.gp ∧
      List.Forall₂ (Represents P order W) vs ws

/-- Code for bindings gives the variables their values and leaves the stack as it was. -/
def BindingsRun (f : Scopes) (id : Nat) (bs : List (Binding Expr)) (f' : Scopes) : Prop :=
  ∀ ⦃V : View⦄ ⦃m : State⦄ ⦃scope : Slots⦄ ⦃kp q b : Int⦄ ⦃s t : GenState⦄ ⦃c : List Instr⦄,
    V.scopes = f → (initialiseBy order scope kp bs).Gives s c t → (∀ d ∈ bs, Admissible d.value) →
    Placed P m.pc c → Ready P order V m id scope kp (fun x => ∃ d ∈ bs, Free x d.value) →
    Pending V m id bs q → b ≤ q →
    ∃ W m', Runs P m m' ∧ m'.pc = m.pc + c.length ∧ W.scopes = f' ∧ Advances P order V b W m' ∧
      m'.stack = m.stack ∧ m'.fp = m.fp ∧ m'.gp = m.gp

variable {P order} {f f₁ f₂ : Scopes} {id : Nat} {p : Pos} {v : Val}

/-! ## Operators and branches -/

theorem CodeRuns.number {text : String} {n : Int} (hn : integer? text = some n) :
    CodeRuns P order f id (.number p text) (.int n) f := by
  intro V m want scope kp s t c hV hc _ hp hr _
  simp only [codeBy] at hc
  obtain ⟨rfl, rfl⟩ := Gen.gives_pure.1 hc
  have h₁ : Leaves P order .basic V m (.int n) V (m.push n).next :=
    ⟨.refl hr.good ⟨hr.agrees.word, hr.agrees.lt_fresh⟩ le_rfl, ⟨n, rfl, rfl⟩, rfl, rfl⟩
  obtain ⟨W, m', r, pc', hW, h'⟩ := boxed_runs h₁ hp.tail
  refine ⟨W, m', Runs.loadc hp (by simp [word?, hn]) r, ?_, hW.trans hV, h'⟩
  simp [pc']; omega

theorem CodeRuns.unary {op : UnOp} {v : Int} {o : Int → Int}
    (ha : CodeRuns P order f id a (.int v) f₁) (hf : op.onIntegers? = some o) :
    CodeRuns P order f id (.unary p op a) (.int (o v)) f₁ := by
  intro V m want scope kp s t c hV hc hadm hp hr _
  obtain ⟨ca, o, hca, hop, rfl⟩ := codeBy_unary_gives hc
  cases hadm with | unary hadm =>
  obtain ⟨W₁, m₁, r₁, pc₁, hW₁, h₁⟩ := ha hV hca hadm hp.left
    (hr.of_imp fun _ => .unary) fun _ => ⟨_, rfl⟩
  have hp₁ := hp.behind pc₁
  obtain ⟨W, m', r, pc', hW, h'⟩ := boxed_runs (h₁.replace (m₁.pc + 1)) hp₁.tail
  refine ⟨W, m', r₁.trans (Runs.unary hp₁ h₁.stack_int ?_), ?_, hW.trans hW₁, h'⟩
  · rw [unaryOp_apply hop hf]; exact r
  · simp [pc', pc₁]; omega

theorem CodeRuns.binary {op : BinOp} {v w : Int} {o : Int → Int → Int}
    (ha : CodeRuns P order f id a (.int v) f₁) (hb : CodeRuns P order f₁ id b (.int w) f₂)
    (hf : op.onIntegers? = some o) :
    CodeRuns P order f id (.binary p op a b) (.int (o v w)) f₂ := by
  intro V m want scope kp s t c hV hc hadm hp hr _
  obtain ⟨ca, u, cb, o, hca, hcb, hop, rfl⟩ := codeBy_binary_gives hc
  cases hadm with | binary hadma hadmb =>
  rw [List.append_assoc] at hp ⊢
  obtain ⟨W₁, m₁, r₁, pc₁, hW₁, h₁⟩ := ha hV hca hadma hp.left
    (hr.of_imp fun _ => .left) fun _ => ⟨_, rfl⟩
  have hp₁ := hp.behind pc₁
  obtain ⟨W₂, m₂, r₂, pc₂, hW₂, h₂⟩ := hb hW₁ hcb hadmb hp₁.left
    (h₁.ready (hr.of_imp fun _ => .right)) fun _ => ⟨_, rfl⟩
  have hp₂ := hp₁.behind pc₂
  have hs₂ := h₂.stack_int
  rw [h₁.stack_int] at hs₂
  obtain ⟨W, m', r, pc', hW, h'⟩ := boxed_runs (h₁.combine h₂ _ (m₂.pc + 1)) hp₂.tail
  refine ⟨W, m', r₁.trans (r₂.trans (Runs.binary hp₂ hs₂ (binaryOp_apply hop hf _ _) r)), ?_,
    hW.trans hW₂, h'⟩
  simp [pc', pc₁, pc₂]; omega

theorem CodeRuns.var (hx : f.get? id x = some (some v)) : CodeRuns P order f id (.var p x) v f := by
  intro V m want scope kp s t c hV hc _ hp hr hint
  obtain ⟨cx, hcx, rfl⟩ := codeBy_var_gives hc
  have hsees := hr.sees x .var
  subst hV
  have h₁ : Leaves P order .reference V m v V
      ((m.push (V.address id x)).jumpTo (m.pc + cx.length)) :=
    ⟨.refl hr.good ⟨hr.agrees.word, hr.agrees.lt_fresh⟩ le_rfl,
      ⟨_, rfl, hr.good.get? hsees.1 hx⟩, rfl, rfl⟩
  obtain ⟨m', r, pc', h'⟩ := unboxed_runs h₁ hint hp.right
  refine ⟨V, m', (variable_runs hcx hsees hr.agrees hp.left).trans r, ?_, rfl, h'⟩
  simp [pc']; omega

theorem CodeRuns.ifTrue (hP : (labels P).Nodup) {b : Option Expr} {k : Int}
    (he : CodeRuns P order f id e (.int k) f₁) (hk : k ≠ 0) (ha : CodeRuns P order f₁ id a v f₂) :
    CodeRuns P order f id (.ifThen p e a b) v f₂ := by
  intro V m want scope kp s t c hV hc hadm hp hr hint
  obtain ⟨i, th, el, en, s', ce, u, ca, u', cb, -, hce, hca, -, rfl⟩ := codeBy_ifThen_gives hc
  cases hadm with | ifThen hadme hadma _ =>
  simp only [List.append_assoc, List.cons_append] at hp ⊢
  obtain ⟨W₁, m₁, r₁, pc₁, hW₁, h₁⟩ := he (m := m.next) hV hce hadme hp.tail.left
    (hr.next.of_imp fun _ => .condition) fun _ => ⟨_, rfl⟩
  have hp₁ := hp.tail.behind pc₁
  have hp₂ := hp₁.tail.tail
  have ha₁ : Advances P order V m.fresh W₁ (m₁.on m.stack).next.next :=
    h₁.toAdvances.congr rfl rfl
  obtain ⟨W₂, m₂, r₂, pc₂, hW₂, h₂⟩ := ha (m := (m₁.on m.stack).next.next) hW₁ hca hadma hp₂.left
    ((hr.of_imp fun _ => .yes).stay ha₁ rfl h₁.gp) hint
  have hp₃ := hp₂.behind pc₂
  have hend := hp₃.tail.tail.right
  refine ⟨W₂, _, Runs.label hp (r₁.trans (Runs.jumpz_other hp₁ h₁.stack_int hk
    (Runs.label hp₁.tail (r₂.trans (Runs.jump hp₃ (target?_eq hP hend)
    (Runs.label hend (.refl _))))))), ?_, hW₂, ?_⟩
  · simp [pc₂, pc₁]; omega
  · exact (Leaves.after ha₁ rfl h₁.fp h₁.gp h₂).jumpTo _

theorem CodeRuns.ifFalse (hP : (labels P).Nodup) (he : CodeRuns P order f id e (.int 0) f₁)
    (hb : CodeRuns P order f₁ id b v f₂) : CodeRuns P order f id (.ifThen p e a (some b)) v f₂ := by
  intro V m want scope kp s t c hV hc hadm hp hr hint
  obtain ⟨i, th, el, en, s', ce, u, ca, u', cb, -, hce, -, hcb, rfl⟩ := codeBy_ifThen_gives hc
  cases hadm with | ifThen hadme _ hadmb =>
  simp only [List.append_assoc, List.cons_append] at hp ⊢
  obtain ⟨W₁, m₁, r₁, pc₁, hW₁, h₁⟩ := he (m := m.next) hV hce hadme hp.tail.left
    (hr.next.of_imp fun _ => .condition) fun _ => ⟨_, rfl⟩
  have hp₁ := hp.tail.behind pc₁
  have hp₂ := hp₁.tail.tail.right.tail
  have ha₁ : ∀ n, Advances P order V m.fresh W₁ ((m₁.on m.stack).jumpTo n).next :=
    fun n => h₁.toAdvances.congr rfl rfl
  obtain ⟨W₂, m₂, r₂, pc₂, hW₂, h₂⟩ := hb (m := ((m₁.on m.stack).jumpTo _).next) hW₁ hcb hadmb
    hp₂.tail.left ((hr.of_imp fun _ => .no).stay (ha₁ _) rfl h₁.gp) hint
  refine ⟨W₂, _, Runs.label hp (r₁.trans (Runs.jumpz_zero hp₁ h₁.stack_int (target?_eq hP hp₂)
    (Runs.label hp₂ (r₂.trans (Runs.label (hp₂.tail.behind pc₂) (.refl _)))))), ?_, hW₂, ?_⟩
  · simp [pc₂, pc₁]; omega
  · exact (Leaves.after (ha₁ _) rfl h₁.fp h₁.gp h₂).jumpTo _

/-! ## Functions and calls -/

theorem CodeRuns.lambda (hP : (labels P).Nodup) (ho : order.Lists) {params : List String}
    {body : Expr} :
    CodeRuns P order f id (.lambda p params body false) (.closure id params body) f := by
  intro V m want scope kp s t c hV hc hadm hp hr _
  obtain ⟨rfl, fn, af, s', names, cx, ca, -, hnames, hcx, hca, rfl⟩ := codeBy_lambda_gives hc
  obtain ⟨hexact, hbody⟩ : FreeVarsExact (.lambda p params body false) ∧ Admissible body := by
    cases hadm with | lambda hx ha => exact ⟨hx, ha⟩
  obtain ⟨names', hnames', hiff⟩ := hexact
  obtain rfl : names = names' := Except.ok.inj (hnames.symm.trans hnames')
  have hfree : ∀ x, x ∈ order fn names ↔ Free x (.lambda p params body false) :=
    fun x => (ho fn names x).trans (hiff x)
  let refs := (order fn names).map (V.address id)
  have hlen : refs.length = (order fn names).length := List.length_map ..
  simp only [List.append_assoc, List.cons_append, List.nil_append, ← hlen] at hp ⊢
  have hvars := variableCodes_runs hcx (hr.of_imp fun x hx => (hfree x).1 hx) hp.left
  have hp₁ := hp.right
  have hp₂ := hp₁.tail.tail.tail
  have hend := hp₂.tail.right.tail
  -- The vector is settled first, then the function that refers to it.
  let m₂ := (((m.jumpTo (m.pc + cx.length)).on m.stack).object (tagV :: refs.length :: refs)).next
  have hheap : ∀ a < m.fresh, m₂.heap a = m.heap a := fun a ha => writeWords_before ha _ _
  have hle : m.fresh ≤ m₂.fresh := by show m.fresh ≤ m.fresh + _; omega
  have hvec := Advances.allocate hr.good hr.agrees hle hheap
  have hfun : IsFunction P order (V.settle m.fresh m₂.fresh m₂.heap) id params body
      (m.pc + cx.length + 1 + 1 + 1) m.fresh := by
    refine ⟨hr.lt_size, hbody, order fn names, scope, fn, s', t, ca, hca, ?_, fun x hx => ?_,
      fun i x hi => ⟨?_, ?_⟩⟩
    · have hcode : Instr.label (.text fn) :: (ca ++ [.popenv, .label (.text af)]) =
          (.label (.text fn) :: (ca ++ [.popenv])) ++ [.label (.text af)] := by simp
      exact (hcode ▸ hp₂).left
    · by_cases hxp : x ∈ params
      · exact .inl hxp
      · exact .inr ((hfree x).2 (.lambda hxp hx))
    · exact (hr.sees x ((hfree x).1 (List.mem_of_getElem? hi))).1
    · have hi' : i < refs.length := hlen ▸ (List.getElem?_eq_some_iff.1 hi).1
      have hfr : m₂.fresh = m.fresh + (refs.length + 1 + 1 : Nat) := rfl
      rw [View.settle_heap (by omega) (by omega),
        show m.fresh + 2 + i = m.fresh + (i + 2 : Nat) by omega]
      exact congrArg some (writeWords_get m.heap m.fresh _ (i + 2) (by simp [refs, hi]; rfl))
  refine ⟨_, _, hvars.trans (Runs.mkvec hp₁ rfl (Runs.mkfunval hp₁.tail rfl
    (target?_eq hP hp₂) (Runs.jump hp₁.tail.tail (target?_eq hP hend)
    (Runs.label hend (.refl _))))), ?_, ?_,
    (Leaves.object (n := m.pc) hvec rfl rfl rfl fun hext => ?_).jumpTo _⟩
  · simp; omega
  · exact hV
  · refine ⟨_, m.fresh, ?_, ?_, hfun.mono hext⟩
    · rw [View.settle_heap (by omega) (by simp)]
      exact congrArg some (writeWords_get m₂.heap m₂.fresh _ 1 rfl)
    · rw [View.settle_heap (by omega) (by simp)]
      exact congrArg some (writeWords_get m₂.heap m₂.fresh _ 3 rfl)

theorem ArgumentsRun.nil : ArgumentsRun P order f id [] [] f := by
  intro V m scope kp s t c hV hc _ _ hr
  obtain ⟨rfl, rfl⟩ := Gen.gives_pure.1 hc
  exact ⟨V, m, [], .refl m, rfl, hV, .refl hr.good hr.agrees le_rfl, rfl, rfl, rfl, .nil⟩

theorem ArgumentsRun.cons {as : List Expr} {vs : List Val} (hk₁ : f.Kept f₁) (hk₂ : f₁.Kept f₂)
    (ha : CodeRuns P order f id a v f₁) (has : ArgumentsRun P order f₁ id as vs f₂)
    (hcount : as.length = vs.length) : ArgumentsRun P order f id (a :: as) (v :: vs) f₂ := by
  intro V m scope kp s t c hV hc hadm hp hr
  obtain ⟨cs, u, ca, hcs, hca, rfl⟩ := argumentsBy_gives hc
  subst hV
  -- The rest of the arguments comes first, among the scopes that the first one will have added.
  have hpre := Advances.rescope hr.good hr.agrees hk₁
  obtain ⟨W₂, m₂, ws, r₂, pc₂, hW₂, h₂, hs₂, hfp₂, hgp₂, hws⟩ := has rfl hcs
    (fun a hmem => hadm a (List.mem_cons_of_mem _ hmem)) hp.left
    ((hr.of_imp fun x ⟨a, hmem, hx⟩ => ⟨a, List.mem_cons_of_mem _ hmem, hx⟩).stay hpre rfl rfl)
  have hk : kp + (as.length : Int) = kp + ws.length := by rw [hcount, hws.length_eq]
  obtain ⟨W₁, m₁, r₁, pc₁, hW₁, h₁⟩ := ha (V := { V with heap := W₂.heap }) rfl
    hca (hadm _ (List.mem_cons_self ..)) (hp.behind pc₂)
    ((hr.of_imp fun x hx => ⟨_, List.mem_cons_self .., hx⟩).push (h₂.reheap hr.good) hs₂ hgp₂ hk)
    nofun
  subst hW₁
  obtain ⟨hM, hM₁, hM₂⟩ := Advances.merge hk₁ (hW₂ ▸ hk₂) h₂ h₁.toAdvances
  obtain ⟨w, hs₁, hw⟩ := h₁.stack
  refine ⟨W₁.merge W₂, m₁, w :: ws, r₂.trans r₁, ?_, hW₂, hM, ?_, h₁.fp.trans hfp₂,
    h₁.gp.trans hgp₂, .cons (hw.mono hM₁) (hws.imp fun _ _ hv => hv.mono hM₂)⟩
  · simp [pc₁, pc₂]; omega
  · rw [hs₁, hs₂]; rfl

theorem CodeRuns.call (hP : (labels P).Nodup) {args : List Expr} {k : Nat} {ps : List String}
    {vs : List Val} {g f' : Scopes} (hk₁ : f.Kept f₁) (hk₂ : f₁.Kept g)
    (he : CodeRuns P order f id e (.closure k ps b) f₁)
    (hargs : ArgumentsRun P order f₁ id args vs g) (hcount : args.length = vs.length)
    (hlen : vs.length = ps.length)
    (hbody : CodeRuns P order (bindAll (g.push k ps none).2 g.size ps vs) g.size b v f') :
    CodeRuns P order f id (.call p e args) v f' := by
  intro V m want scope kp s t c hV hc hadm hp hr hint
  obtain ⟨ret, s', cas, u, ce, -, hcas, hce, rfl⟩ := codeBy_call_gives hc
  cases hadm with | call hadme hadma =>
  subst hV
  simp only [List.append_assoc, List.cons_append] at hp ⊢
  have hret := hp.tail.right.right.tail
  let n := m.pc + 1 + cas.length + ce.length + 1
  let m₀ : State := { m with stack := (n : Int) :: m.fp :: m.gp :: m.stack,
                             fp := m.stack.length + 3 }.next
  have ha₀ : Advances P order V m.fresh V m₀ :=
    .refl hr.good ⟨hr.agrees.word, hr.agrees.lt_fresh⟩ le_rfl
  have hr₀ : Ready P order V m₀ _ _ (kp + 3) _ :=
    hr.push ha₀ (show m₀.stack = [(n : Int), m.fp, m.gp] ++ m.stack from rfl) rfl rfl
  obtain ⟨W₂, m₂, ws, r₂, pc₂, hW₂, h₂, hs₂, hfp₂, hgp₂, hws⟩ := hargs rfl hcas hadma hp.tail.left
    ((hr₀.of_imp fun x ⟨a, hmem, hx⟩ => .argument hmem hx).stay
      (Advances.rescope hr₀.good hr₀.agrees hk₁) rfl rfl)
  have hk : kp + 3 + (args.length : Int) = kp + 3 + ws.length := by
    rw [hcount, hws.length_eq]
  obtain ⟨W₁, m₁, r₁, pc₁, hW₁, h₁⟩ := he (V := { V with heap := W₂.heap }) rfl
    hce hadme (hp.tail.behind pc₂).left
    ((hr₀.of_imp fun x hx => .callee hx).push (h₂.reheap hr.good) hs₂ hgp₂ hk) nofun
  subst hW₁
  obtain ⟨hM, hM₁, hM₂⟩ := Advances.merge hk₁ (hW₂ ▸ hk₂) h₂ h₁.toAdvances
  obtain ⟨a, hs₁, j, g', hj, hg', hfun⟩ := h₁.stack
  rw [hs₂] at hs₁
  have hws' := hws.imp fun _ _ hv => hv.mono hM₂
  -- The body starts with the references to the arguments on top of the words of `mark`.
  let m₃ := ({ m₁ with stack := ws ++ m₀.stack, gp := m₁.heap (a + 3) }.jumpTo j).next
  have hMs : (W₁.merge W₂).Agrees m₃ := ⟨hM.agrees.word, hM.agrees.lt_fresh⟩
  obtain ⟨scope', l, s₃, t₃, c₃, hc₃, hp₃, hr₃⟩ := enterCall_ready (m := m₃) (hfun.mono hM₁)
    hM.good hMs hws' hlen rfl (h₁.agrees.word hg')
  have ha₃ : Advances P order _ m₃.fresh ((W₁.merge W₂).enterCall k _ _ ws) m₃ :=
    enterCall_advances hM.good hMs hws' hlen
  rw [show (W₁.merge W₂).scopes = g from hW₂] at hr₃
  obtain ⟨W₄, m₄, r₄, pc₄, hW₄, h₄⟩ := hbody
    (congrArg (fun f : Scopes => bindAll (f.push k _ none).2 f.size _ _) hW₂) hc₃ hfun.2.1
    hp₃.tail.left hr₃ nofun
  obtain ⟨w, hs₄, hw⟩ := h₄.stack
  have hfp₄ : m₄.fp = m.stack.length + 3 := h₄.fp.trans (h₁.fp.trans hfp₂)
  have h₅ : Leaves P order .reference V m _ W₄
      ({ m₄ with stack := w :: m.stack, fp := m.fp, gp := m.gp }.jumpTo n).next :=
    ⟨((hM.trans ha₃ hM.fresh).trans h₄.toAdvances hM.fresh).congr rfl rfl, ⟨w, rfl, hw⟩, rfl, rfl⟩
  obtain ⟨m', r, pc', h'⟩ := unboxed_runs h₅ hint hret.tail
  refine ⟨W₄, m', Runs.mark hp (target?_eq hP hret) (r₂.trans (r₁.trans (Runs.apply
    ((hp.tail.behind pc₂).behind pc₁) hs₁ (h₁.agrees.word hj) (Runs.label hp₃ (r₄.trans
    (Runs.popenv (hp₃.tail.behind pc₄) hs₄ hfp₄ (Runs.label hret r))))))), ?_, hW₄, h'⟩
  simp [pc', n]; omega

/-! ## Local variables -/

theorem BindingsRun.nil : BindingsRun P order f id [] f := by
  intro V m scope kp q b s t c hV hc _ _ hr hpend hb
  obtain ⟨rfl, rfl⟩ := Gen.gives_pure.1 hc
  have hle : b ≤ m.fresh := hb.trans (by simpa using hpend.fresh)
  exact ⟨V, m, .refl m, rfl, hV, .refl hr.good hr.agrees hle, rfl, rfl, rfl⟩

theorem BindingsRun.cons {q : Pos} {bs : List (Binding Expr)} (ha : CodeRuns P order f id a v f₁)
    (hbs : BindingsRun P order (f₁.set id x (some v)) id bs f₂) :
    BindingsRun P order f id (⟨p, .var q x, a⟩ :: bs) f₂ := by
  intro V m scope kp q b s t c hV hc hadm hp hr hpend hb
  obtain ⟨ca, u, cs, hca, hcs, rfl⟩ := initialiseBy_gives hc
  obtain ⟨W₁, m₁, r₁, pc₁, hW₁, h₁⟩ := ha hV hca (hadm _ (List.mem_cons_self ..)) hp.left
    (hr.of_imp fun x hx => ⟨_, List.mem_cons_self .., hx⟩) nofun
  have hp₁ := hp.behind pc₁
  obtain ⟨W₂, m₂, r₂, pc₂, hW₂, h₂, hs₂, hfp₂, hgp₂, hpend₂⟩ := hpend.patch hr.good h₁ hp₁ hb
  obtain ⟨W₃, m₃, r₃, pc₃, hW₃, h₃, hs₃, hfp₃, hgp₃⟩ := hbs
    (hW₂.trans (congrArg (Forest.set · _ _ _) hW₁)) hcs
    (fun d hd => hadm d (List.mem_cons_of_mem _ hd)) (pc₂ ▸ hp₁.tail)
    ((hr.of_imp fun x ⟨d, hd, hx⟩ => ⟨d, List.mem_cons_of_mem _ hd, hx⟩).stay h₂ hs₂ hgp₂) hpend₂
    (show b ≤ q + 4 by omega)
  refine ⟨W₃, m₃, r₁.trans (r₂.trans r₃), ?_, hW₃, h₂.trans h₃ le_rfl, hs₃.trans hs₂,
    hfp₃.trans hfp₂, hgp₃.trans hgp₂⟩
  simp [pc₃, pc₂, pc₁]; omega

theorem CodeRuns.letIn {bs : List (Binding Expr)}
    (hb : BindingsRun P order (f.push id (boundNames bs) none).2 f.size bs f₁)
    (ha : CodeRuns P order f₁ f.size a v f₂) : CodeRuns P order f id (.letIn p bs a) v f₂ := by
  intro V m want scope kp s t c hV hc hadm hp hr hint
  obtain ⟨ci, u, ca, hci, hca, rfl⟩ := codeBy_letIn_gives hc
  cases hadm with | letIn hn hadmb hadma =>
  subst hV
  simp only [List.append_assoc, List.cons_append] at hp ⊢
  obtain ⟨hpc₀, hst₀, hfp₀, hgp₀, -⟩ := blanks_spec m bs.length
  have ha₀ := enterLet_advances bs hr
  have hr₀ : Ready P order _ _ _ (letSlots _ bs _) _ _ := enterLet_ready hr
  have hp₀ : Placed P (m.blanks bs.length).next.pc _ :=
    (congrArg (Placed P · _) (congrArg (· + 1) hpc₀)).mpr hp.tail
  have hbind : ∀ x, (∃ d ∈ bs, Free x d.value) → x ∈ boundNames bs ∨ Free x (.letIn p bs a) :=
    fun x ⟨d, hd, hx⟩ => or_iff_not_imp_left.2 fun hmem => .binding hmem hd hx
  obtain ⟨W₁, m₁, r₁, pc₁, hW₁, h₁, hs₁, hfp₁, hgp₁⟩ := hb rfl hci hadmb hp₀.left
    (hr₀.of_imp hbind) (enterLet_pending hn hr) le_rfl
  have hp₁ := hp₀.behind pc₁
  have hbody : ∀ x, Free x a → x ∈ boundNames bs ∨ Free x (.letIn p bs a) :=
    fun x hx => or_iff_not_imp_left.2 fun hmem => .body hmem hx
  obtain ⟨W₂, m₂, r₂, pc₂, hW₂, h₂⟩ := ha hW₁ hca hadma hp₁.left
    ((hr₀.of_imp hbody).stay h₁ hs₁ hgp₁) hint
  obtain ⟨w, hs₂, hw⟩ := h₂.stack
  rw [hs₁] at hs₂
  refine ⟨W₂, _, Runs.alloc hp (r₁.trans (r₂.trans (Runs.slide (hp₁.behind pc₂) hs₂ (.refl _)))),
    ?_, hW₂, ((ha₀.trans h₁ le_rfl).trans h₂.toAdvances h₁.fresh).congr rfl rfl, ⟨w, ?_, hw⟩,
    h₂.fp.trans (hfp₁.trans hfp₀), h₂.gp.trans (hgp₁.trans hgp₀)⟩
  · simp [pc₂, pc₁, hpc₀]; omega
  · have hdrop : (m.blanks bs.length).stack.drop bs.length = m.stack := by
      rw [hst₀]; exact List.drop_left' (by rw [List.length_reverse, length_blankRefs])
    exact congrArg (w :: ·) hdrop

/-! ## Simulation -/

mutual

/-- **Code for an expression pushes its value**, as a word or as a reference. -/
theorem codeBy_runs (hP : (labels P).Nodup) (ho : order.Lists) : ∀ {f : Scopes} {id : Nat}
    {e : Expr} {v : Val} {f' : Scopes}, Evaluates f id e v f' → CodeRuns P order f id e v f'
  | _, _, _, _, _, .number hn => .number hn
  | _, _, _, _, _, .unary ha hf => .unary (codeBy_runs hP ho ha) hf
  | _, _, _, _, _, .binary ha hb hf => .binary (codeBy_runs hP ho ha) (codeBy_runs hP ho hb) hf
  | _, _, _, _, _, .var hx => .var hx
  | _, _, _, _, _, .ifTrue he hk ha => .ifTrue hP (codeBy_runs hP ho he) hk (codeBy_runs hP ho ha)
  | _, _, _, _, _, .ifFalse he hb => .ifFalse hP (codeBy_runs hP ho he) (codeBy_runs hP ho hb)
  | _, _, _, _, _, .lambda => .lambda hP ho
  | _, _, _, _, _, .letIn hb ha => .letIn (initialiseBy_runs hP ho hb) (codeBy_runs hP ho ha)
  | _, _, _, _, _, .call he hargs hlen hbody =>
    .call hP he.kept hargs.kept (codeBy_runs hP ho he) (argumentsBy_runs hP ho hargs)
      hargs.length_eq hlen (codeBy_runs hP ho hbody)

theorem argumentsBy_runs (hP : (labels P).Nodup) (ho : order.Lists) : ∀ {f : Scopes} {id : Nat}
    {es : List Expr} {vs : List Val} {f' : Scopes}, EvaluatesAll f id es vs f' →
    ArgumentsRun P order f id es vs f'
  | _, _, _, _, _, .nil => .nil
  | _, _, _, _, _, .cons ha h =>
    .cons ha.kept h.kept (codeBy_runs hP ho ha) (argumentsBy_runs hP ho h) h.length_eq

theorem initialiseBy_runs (hP : (labels P).Nodup) (ho : order.Lists) : ∀ {f : Scopes} {id : Nat}
    {bs : List (Binding Expr)} {f' : Scopes}, Initialises f id bs f' →
    BindingsRun P order f id bs f'
  | _, _, _, _, .nil => .nil
  | _, _, _, _, .cons ha h => .cons (codeBy_runs hP ho ha) (initialiseBy_runs hP ho h)

end

/-! ## Compiled expressions -/

theorem compileBy_mama_gives {st st' : GenState} {c : Compiled}
    (h : (compileBy order .mama (some e)).Gives st c st') :
    ∃ is, (codeBy order .basic [] 0 e).Gives { st with globals := [] } is st' ∧
      c = ⟨is.map Instr.cell, st'.globals⟩ := by
  simp only [compileBy, Gen.inScope, ExprLang.codeBy, codeOrZeroBy, Gen.gives_bind,
    Gen.gives_modify, Gen.gives_pure, Gen.gives_get] at h
  obtain ⟨_, _, rfl, _, _, ⟨is, _, hv, rfl, rfl⟩, _, _, ⟨rfl, rfl⟩, rfl, rfl⟩ := h
  exact ⟨is, hv, rfl⟩

theorem mapM_ofCell?_cells : ∀ is : List Instr, (is.map Instr.cell).mapM Instr.ofCell? = some is
  | [] => rfl
  | i :: is => by simp [Instr.ofCell?_cell, mapM_ofCell?_cells is]

theorem mem_insertName {name : String} : ∀ {names : List String},
    x ∈ insertName name names ↔ x = name ∨ x ∈ names
  | [] => by simp [insertName]
  | n :: names => by
    have ih : x ∈ insertName name names ↔ x = name ∨ x ∈ names := mem_insertName
    rw [insertName]
    split_ifs with hlt heq
    · simp
    · subst heq; simp
    · simp only [List.mem_cons, ih]; tauto

theorem mem_sortNames : ∀ {names : List String}, x ∈ sortNames names ↔ x ∈ names
  | [] => Iff.rfl
  | n :: names => by
    have ih : x ∈ sortNames names ↔ x ∈ names := mem_sortNames
    rw [sortNames, List.foldr_cons, mem_insertName, ← sortNames, ih, List.mem_cons]

theorem ascending_lists : CaptureOrder.Lists ascending := fun _ _ _ => mem_sortNames

theorem Ready.start {m : State} (hid : id < f.size) (he : ∀ x, ¬ Free x e) :
    Ready P order ⟨f, fun _ _ => False, fun _ _ => 0, fun _ => none⟩ m id [] 0 (Free · e) :=
  ⟨⟨False.elim, fun h => h.elim⟩, ⟨nofun, nofun⟩, hid, fun x hx => absurd hx (he x)⟩

/-- **Compiled code of a closed expression does what the expression says**, in whatever order the
functions list the variables that they capture.  From its first instruction it runs to its end and
pushes exactly the integer that the expression evaluates to, in any state of the machine. -/
theorem compile_mama_preserves_meaning {order : CaptureOrder} (ho : order.Lists) {e : Expr}
    (hadm : Admissible e) (hclosed : ∀ x, ¬ Free x e) {st st' : GenState} {c : Compiled}
    (hc : (compileBy order .mama (some e)).Gives st c st') :
    ∃ P, c.code.mapM Instr.ofCell? = some P ∧
      ∀ {f f' : Scopes} {id : Nat} {n : Int}, id < f.size → Evaluates f id e (.int n) f' →
      ∀ {m : State}, m.pc = 0 →
        ∃ m', Runs P m m' ∧ m'.pc = P.length ∧ m'.stack = n :: m.stack := by
  obtain ⟨is, his, rfl⟩ := compileBy_mama_gives hc
  have hP : (labels is).Nodup := (codeOrZeroBy_laid order (some e) [] his).fresh.nodup
  refine ⟨is, mapM_ofCell?_cells is, fun hid he m hpc => ?_⟩
  obtain ⟨W, m', hr, hpc', -, hm'⟩ := codeBy_runs hP ho he rfl his hadm (hpc ▸ Placed.whole is)
    (Ready.start hid hclosed) fun _ => ⟨_, rfl⟩
  exact ⟨m', hr, by simpa [hpc] using hpc', hm'.stack_int⟩

/-! ### A recursive function

`local f = lambda (n) -> if n then n + f(n - 1) else k; k = 5 in f(1)`: the function captures itself
and a variable that has no value yet. -/

section sum

variable {x : String}

/-- Where everything stands. -/
abbrev sumPos : Pos := ⟨[], 1, 1⟩

abbrev sumVar (x : String) : Expr := .var sumPos x

abbrev sumBody : Expr :=
  .ifThen sumPos (sumVar "n") (.binary sumPos .plus (sumVar "n")
    (.call sumPos (sumVar "f")
      [.binary sumPos .minus (sumVar "n") (.number sumPos "1")])) (some (sumVar "k"))

/-- The function. -/
abbrev sumLambda : Expr := .lambda sumPos ["n"] sumBody false

abbrev sumExpr : Expr :=
  .letIn sumPos [⟨sumPos, .var sumPos "f", sumLambda⟩,
    ⟨sumPos, .var sumPos "k", .number sumPos "5"⟩]
    (.call sumPos (sumVar "f") [.number sumPos "1"])

theorem free_sumVar {y : String} (h : Free x (sumVar y)) : x = y := by cases h; rfl

theorem free_sumCall {p : Pos} {a : Expr} (h : Free x (.call p (sumVar "f") [a])) :
    x = "f" ∨ Free x a := by
  cases h with
  | callee h => exact .inl (free_sumVar h)
  | argument ha h => exact .inr (List.mem_singleton.1 ha ▸ h)

theorem free_sumLambda (h : Free x sumLambda) : x ∈ ["f", "k"] := by
  have hbody : ∀ {x}, Free x sumBody → x = "n" ∨ x ∈ ["f", "k"] := fun h => by
    cases h with
    | condition h => exact .inl (free_sumVar h)
    | no h => simp [free_sumVar h]
    | yes h =>
      cases h with
      | left h => exact .inl (free_sumVar h)
      | right h =>
        rcases free_sumCall h with rfl | ⟨⟩ | h | h
        · simp
        · exact .inl (free_sumVar h)
        · cases h
  cases h with | lambda hx h => exact (hbody h).resolve_left (by simpa using hx)

theorem sumLambda_exact : FreeVarsExact sumLambda := by
  refine ⟨["f", "k"], rfl, fun x => ⟨fun hx => ?_, free_sumLambda⟩⟩
  rcases List.mem_cons.1 hx with rfl | hx
  · exact .lambda (by decide) (.yes (.right (.callee .var)))
  · cases List.mem_singleton.1 hx
    exact .lambda (by decide) (.no .var)

theorem sumExpr_admissible : Admissible sumExpr :=
  .letIn (by decide)
    (List.forall_mem_cons.2 ⟨.lambda sumLambda_exact (.ifThen .var (.binary .var (.call .var
      (List.forall_mem_singleton.2 (.binary .var .number)))) .var),
      List.forall_mem_singleton.2 .number⟩)
    (.call .var (List.forall_mem_singleton.2 .number))

theorem sumExpr_closed (x : String) : ¬ Free x sumExpr := fun h => by
  cases h with
  | binding hx hb h =>
    rcases List.mem_cons.1 hb with rfl | hb
    · exact hx (free_sumLambda h)
    · cases List.mem_singleton.1 hb; cases h
  | body hx h =>
    rcases free_sumCall h with rfl | ⟨⟨⟩⟩
    exact hx (by decide)

theorem sumExpr_evaluates : ∃ g, Evaluates (Forest.addRoot .empty).2 0 sumExpr (.int 6) g := by
  -- The scopes in the body of the `local`, in the call `f(1)` and in the call `f(0)`.
  let root : Scope (Option Val) Nat := ⟨[], none, none⟩
  let top : Scope (Option Val) Nat :=
    ⟨[("f", some (.closure 1 ["n"] sumBody)), ("k", some (.int 5))], some 0, none⟩
  let inner (n : Int) : Scope (Option Val) Nat := ⟨[("n", some (.int n))], some 1, none⟩
  have h₁ : (((Forest.addRoot .empty).2.push 0 ["f", "k"] none).2.set 1 "f"
      (some (.closure 1 ["n"] sumBody))).set 1 "k" (some (.int 5)) = ⟨#[root, top]⟩ := by
    simp [Forest.addRoot, Forest.empty, Forest.push, Forest.add, Forest.set, Forest.bind,
      Forest.modify, Forest.home, Forest.vars, Forest.mark?, Bindings.has, Bindings.set, root, top]
  have h₂ : bindAll (Forest.push ⟨#[root, top]⟩ 1 ["n"] none).2 2 ["n"] [.int 1] =
      ⟨#[root, top, inner 1]⟩ := by
    simp [bindAll, Forest.push, Forest.add, Forest.set, Forest.bind, Forest.modify, Forest.home,
      Forest.vars, Forest.mark?, Bindings.has, Bindings.set, top]
    rfl
  have h₃ : bindAll (Forest.push ⟨#[root, top, inner 1]⟩ 1 ["n"] none).2 3 ["n"] [.int 0] =
      ⟨#[root, top, inner 1, inner 0]⟩ := by
    simp [bindAll, Forest.push, Forest.add, Forest.set, Forest.bind, Forest.modify, Forest.home,
      Forest.vars, Forest.mark?, Bindings.has, Bindings.set, top]
    rfl
  have hf₁ : Forest.get? ⟨#[root, top]⟩ 1 "f" = some (some (.closure 1 ["n"] sumBody)) := by
    rw [Forest.get?, Forest.home_of_has rfl]; rfl
  have hf₂ : Forest.get? ⟨#[root, top, inner 1]⟩ 2 "f" =
      some (some (.closure 1 ["n"] sumBody)) := by
    rw [Forest.get?, Forest.home_of_parent rfl rfl (by decide), Forest.home_of_has rfl]; rfl
  have hn₂ : Forest.get? ⟨#[root, top, inner 1]⟩ 2 "n" = some (some (.int 1)) := by
    rw [Forest.get?, Forest.home_of_has rfl]; rfl
  have hn₃ : Forest.get? ⟨#[root, top, inner 1, inner 0]⟩ 3 "n" = some (some (.int 0)) := by
    rw [Forest.get?, Forest.home_of_has rfl]; rfl
  have hk₃ : Forest.get? ⟨#[root, top, inner 1, inner 0]⟩ 3 "k" = some (some (.int 5)) := by
    rw [Forest.get?, Forest.home_of_parent rfl rfl (by decide), Forest.home_of_has rfl]; rfl
  have he₃ : Evaluates ⟨#[root, top, inner 1, inner 0]⟩ 3 sumBody (.int 5) _ :=
    .ifFalse (.var hn₃) (.var hk₃)
  rw [← h₃] at he₃
  have hdec : Evaluates ⟨#[root, top, inner 1]⟩ 2
      (.binary sumPos .minus (sumVar "n") (.number sumPos "1")) (.int 0) _ :=
    .binary (o := (· - ·)) (.var hn₂) (.number (n := 1) rfl) rfl
  have he₂ : Evaluates ⟨#[root, top, inner 1]⟩ 2 sumBody (.int 6) _ :=
    .ifTrue (.var hn₂) (by decide)
      (.binary (o := (· + ·)) (.var hn₂) (.call (.var hf₂) (.cons hdec .nil) rfl he₃) rfl)
  rw [← h₂] at he₂
  have he₁ : Evaluates ⟨#[root, top]⟩ 1 (.call sumPos (sumVar "f") [.number sumPos "1"])
      (.int 6) _ :=
    .call (.var hf₁) (.cons (.number rfl) .nil) rfl he₂
  rw [← h₁] at he₁
  exact ⟨_, .letIn (.cons .lambda (.cons (.number rfl) .nil)) he₁⟩

end sum

/-- The recursive function above, run on a stack that already holds a word. -/
theorem compile_mama_preserves_meaning_sum :
    ∃ c st P m', (compile .mama (some sumExpr)).Gives .initial c st ∧
      c.code.mapM Instr.ofCell? = some P ∧
      Runs P ⟨0, [7], 0, 0, fun _ => 0, 0⟩ m' ∧ m'.pc = P.length ∧ m'.stack = [6, 7] := by
  obtain ⟨g, he⟩ := sumExpr_evaluates
  obtain ⟨P, hP, run⟩ := compile_mama_preserves_meaning ascending_lists sumExpr_admissible
    sumExpr_closed (show (compile .mama (some sumExpr)).Gives .initial _ _ from rfl)
  obtain ⟨m', hr, hpc, hs⟩ := run (by decide) he (m := ⟨0, [7], 0, 0, fun _ => 0, 0⟩) rfl
  exact ⟨_, _, P, m', rfl, hP, hr, hpc, hs⟩

end ExprLang.MaMa
