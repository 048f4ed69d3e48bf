/-
  What the code generator of the MaMa does.

  An equation for each kind of expression says from which parts its code is put together.
-/
import ExprLang.MaMa.Generate
import ExprLang.Proofs.Generator
import ExprLang.Proofs.MaMaMachine

namespace ExprLang.MaMa

open Gen

variable {order : CaptureOrder} {want : Want} {scope : Slots} {kp : Int} {s t : GenState}
  {c : List Instr} {p : Pos}

/-! ## Variables -/

theorem variable_gives {x : String} (h : (variable_ scope kp x).Gives s c t) :
    s = t ∧ ∃ slot, (scope.lookup x).or (s.globals.lookup x) = some slot ∧
      (slot.storage = .local_ ∧ c = [.pushloc (.int (kp - slot.address))] ∨
        slot.storage = .global ∧ c = [.pushglob (.int slot.address)]) := by
  simp only [variable_, gives_bind, slot?_gives] at h
  obtain ⟨r, _, ⟨hr, rfl⟩, h⟩ := h
  rcases r with _ | ⟨storage, a, size⟩
  · exact absurd h gives_throw
  · cases storage with
    | argument => exact absurd h gives_throw
    | global => obtain ⟨rfl, rfl⟩ := gives_pure.1 h; exact ⟨rfl, _, hr, .inr ⟨rfl, rfl⟩⟩
    | local_ => obtain ⟨rfl, rfl⟩ := gives_pure.1 h; exact ⟨rfl, _, hr, .inl ⟨rfl, rfl⟩⟩

theorem variableCodes_gives {x : String} {xs : List String}
    (h : (variableCodes scope kp (x :: xs)).Gives s c t) :
    ∃ cx cs, (variable_ scope kp x).Gives s cx s ∧ (variableCodes scope (kp + 1) xs).Gives s cs t ∧
      c = cx ++ cs := by
  simp only [variableCodes, gives_bind, gives_pure] at h
  obtain ⟨cx, _, hx, cs, _, hs, rfl, rfl⟩ := h
  obtain ⟨rfl, -⟩ := variable_gives hx
  exact ⟨cx, cs, hx, hs, rfl⟩

theorem variableCodes_state : ∀ {xs : List String} {kp : Int} {c : List Instr},
    (variableCodes scope kp xs).Gives s c t → s = t
  | [], _, _, h => (gives_pure.1 h).2
  | _ :: _, _, _, h => by
    obtain ⟨_, _, _, hs, -⟩ := variableCodes_gives h
    exact variableCodes_state hs

/-! ## The parts of generated code -/

theorem codeBy_unary_gives {op : UnOp} {a : Expr}
    (h : (codeBy order want scope kp (.unary p op a)).Gives s c t) :
    ∃ ca o, (codeBy order .basic scope kp a).Gives s ca t ∧ CMa.unaryOp op = .ok o ∧
      c = ca ++ .unary o :: boxed want := by
  simp only [codeBy, gives_bind, gives_pure, gives_lift] at h
  obtain ⟨ca, _, ha, o, _, ⟨ho, rfl⟩, rfl, rfl⟩ := h
  exact ⟨ca, o, ha, ho, rfl⟩

theorem codeBy_binary_gives {op : BinOp} {a b : Expr}
    (h : (codeBy order want scope kp (.binary p op a b)).Gives s c t) :
    ∃ ca u cb o, (codeBy order .basic scope kp a).Gives s ca u ∧
      (codeBy order .basic scope (kp + 1) b).Gives u cb t ∧ CMa.binaryOp op = .ok o ∧
      c = ca ++ cb ++ .binary o :: boxed want := by
  simp only [codeBy, gives_bind, gives_pure, gives_lift] at h
  obtain ⟨ca, u, ha, cb, _, hb, o, _, ⟨ho, rfl⟩, rfl, rfl⟩ := h
  exact ⟨ca, u, cb, o, ha, hb, ho, rfl⟩

theorem codeBy_var_gives {x : String} (h : (codeBy order want scope kp (.var p x)).Gives s c t) :
    ∃ cx, (variable_ scope kp x).Gives s cx t ∧ c = cx ++ unboxed want := by
  simp only [codeBy, gives_bind, gives_pure] at h
  obtain ⟨cx, _, hx, rfl, rfl⟩ := h
  exact ⟨cx, hx, rfl⟩

theorem freshLabel_globals {name l : String} (h : (freshLabel name).Gives s l t) :
    s.globals = t.globals := by
  obtain ⟨-, rfl⟩ := freshLabel_gives.1 h
  rfl

theorem codeBy_ifThen_gives {e a : Expr} {b : Option Expr}
    (h : (codeBy order want scope kp (.ifThen p e a b)).Gives s c t) :
    ∃ i th el en s' ce u ca v cb, (Fresh s s' [i, th, el, en] ∧ s.globals = s'.globals) ∧
      (codeBy order .basic scope kp e).Gives s' ce u ∧ (codeBy order want scope kp a).Gives u ca v ∧
      (codeOrZeroBy order want scope kp b).Gives v cb t ∧
      c = .label (.text i) :: ce ++ .jumpz (.text el) :: .label (.text th) :: ca ++
        .jump (.text en) :: .label (.text el) :: cb ++ [.label (.text en)] := by
  simp only [codeBy, gives_bind, gives_pure] at h
  obtain ⟨i, s₁, hi, th, s₂, hth, el, s₃, hel, en, s', hen, ce, u, he, ca, v, ha, cb, _, hb, rfl,
    rfl⟩ := h
  have h₁ := freshLabel_fresh (by simp [Stem]) hi
  have h₂ := freshLabel_fresh (by simp [Stem]) hth
  have h₃ := freshLabel_fresh (by simp [Stem]) hel
  have h₄ := freshLabel_fresh (by simp [Stem]) hen
  have hg : s.globals = s'.globals := (freshLabel_globals hi).trans ((freshLabel_globals hth).trans
    ((freshLabel_globals hel).trans (freshLabel_globals hen)))
  exact ⟨i, th, el, en, s', ce, u, ca, v, cb, ⟨h₁.trans (h₂.trans (h₃.trans h₄)), hg⟩, he, ha, hb,
    rfl⟩

/-- The slots inside a `local`. -/
abbrev letSlots (kp : Int) (bs : List (Binding Expr)) (scope : Slots) : Slots :=
  slotsFrom .local_ (kp + 1) 1 (bs.map (·.target.name)) [] ++ scope

theorem bindingNames_eq : ∀ {bs : List (Binding Expr)} {names : List String},
    bindingNames bs = .ok names → names = bs.map (·.target.name)
  | [], _, h => by
    cases h
    rfl
  | ⟨_, .var _ x, _⟩ :: bs, names, h => by
    cases hxs : bindingNames bs with
    | error f =>
      rw [bindingNames, hxs] at h
      cases h
    | ok xs =>
      rw [bindingNames, hxs] at h
      cases h
      rw [bindingNames_eq hxs]
      rfl
  | ⟨_, .bare _, _⟩ :: _, _, h => nomatch h

theorem codeBy_letIn_gives {bs : List (Binding Expr)} {a : Expr}
    (h : (codeBy order want scope kp (.letIn p bs a)).Gives s c t) :
    ∃ ci u ca, (initialiseBy order (letSlots kp bs scope) (kp + bs.length) bs).Gives s ci u ∧
      (codeBy order want (letSlots kp bs scope) (kp + bs.length) a).Gives u ca t ∧
      c = .alloc (.int bs.length) :: ci ++ ca ++ [.slide (.int bs.length)] := by
  simp only [codeBy, gives_bind, gives_pure, gives_lift] at h
  obtain ⟨names, _, ⟨hnames, rfl⟩, ci, u, hi, ca, _, ha, rfl, rfl⟩ := h
  obtain rfl := bindingNames_eq hnames
  exact ⟨ci, u, ca, hi, ha, rfl⟩

theorem codeBy_call_gives {e : Expr} {args : List Expr}
    (h : (codeBy order want scope kp (.call p e args)).Gives s c t) :
    ∃ ret s' cas u ce, (Fresh s s' [ret] ∧ s.globals = s'.globals) ∧
      (argumentsBy order scope (kp + 3) args).Gives s' cas u ∧
      (codeBy order .reference scope (kp + 3 + args.length) e).Gives u ce t ∧
      c = .mark (.text ret) :: cas ++ ce ++ .apply :: .label (.text ret) :: unboxed want := by
  simp only [codeBy, gives_bind, gives_pure] at h
  obtain ⟨ret, s', hret, cas, u, hargs, ce, _, he, rfl, rfl⟩ := h
  exact ⟨ret, s', cas, u, ce, ⟨freshLabel_fresh (by simp [Stem]) hret, freshLabel_globals hret⟩,
    hargs, he, rfl⟩

theorem codeBy_lambda_gives {params : List String} {a : Expr} {rest : Bool}
    (h : (codeBy order want scope kp (.lambda p params a rest)).Gives s c t) :
    want = .reference ∧ ∃ fn af s' names cx ca, (Fresh s s' [fn, af] ∧ s.globals = s'.globals) ∧
      freeVars (.lambda p params a rest) = .ok names ∧
      (variableCodes scope kp (order fn names)).Gives s' cx s' ∧
      (codeBy order .reference (functionSlots (order fn names) params ++ scope) 0 a).Gives s' ca t ∧
      c = cx ++ ([.mkvec (.int (order fn names).length), .mkfunval (.text fn), .jump (.text af),
        .label (.text fn)] : List Instr) ++ ca ++ [.popenv, .label (.text af)] := by
  cases want with
  | basic => simp only [codeBy] at h; exact absurd h gives_throw
  | reference =>
    simp only [codeBy, gives_bind, gives_pure, gives_lift] at h
    obtain ⟨fn, s₁, hfn, af, s', haf, names, _, ⟨hx, rfl⟩, cx, _, hcx, ca, _, ha, rfl, rfl⟩ := h
    obtain rfl := variableCodes_state hcx
    have h₁ := freshLabel_fresh (by simp [Stem]) hfn
    have h₂ := freshLabel_fresh (by simp [Stem]) haf
    exact ⟨rfl, fn, af, _, names, cx, ca,
      ⟨h₁.trans h₂, (freshLabel_globals hfn).trans (freshLabel_globals haf)⟩, hx, hcx, ha, rfl⟩

theorem argumentsBy_gives {a : Expr} {as : List Expr}
    (h : (argumentsBy order scope kp (a :: as)).Gives s c t) :
    ∃ cs u ca, (argumentsBy order scope kp as).Gives s cs u ∧
      (codeBy order .reference scope (kp + as.length) a).Gives u ca t ∧ c = cs ++ ca := by
  simp only [argumentsBy, gives_bind, gives_pure] at h
  obtain ⟨cs, u, hs, ca, _, ha, rfl, rfl⟩ := h
  exact ⟨cs, u, ca, hs, ha, rfl⟩

theorem initialiseBy_gives {b : Binding Expr} {bs : List (Binding Expr)}
    (h : (initialiseBy order scope kp (b :: bs)).Gives s c t) :
    ∃ ca u cs, (codeBy order .reference scope kp b.value).Gives s ca u ∧
      (initialiseBy order scope kp bs).Gives u cs t ∧
      c = ca ++ .patch (.int (bs.length + 1)) :: cs := by
  simp only [initialiseBy, gives_bind, gives_pure] at h
  obtain ⟨ca, u, ha, cs, _, hs, rfl, rfl⟩ := h
  exact ⟨ca, u, cs, ha, hs, rfl⟩

/-! ## Labels -/

def labels (c : List Instr) : List String := labelsOf Instr.name? c

theorem labels_variable {x : String} (h : (variable_ scope kp x).Gives s c t) : labels c = [] := by
  obtain ⟨-, slot, -, ⟨-, rfl⟩ | ⟨-, rfl⟩⟩ := variable_gives h <;> rfl

theorem labels_variableCodes : ∀ {xs : List String} {kp : Int} {c : List Instr},
    (variableCodes scope kp xs).Gives s c t → labels c = []
  | [], _, _, h => by obtain ⟨rfl, -⟩ := gives_pure.1 h; rfl
  | _ :: _, _, _, h => by
    obtain ⟨cx, cs, hx, hs, rfl⟩ := variableCodes_gives h
    rw [labels, labelsOf_append, ← labels, ← labels, labels_variable hx, labels_variableCodes hs]
    rfl

theorem labels_boxed (want : Want) : labels (boxed want) = [] := by cases want <;> rfl

theorem labels_unboxed (want : Want) : labels (unboxed want) = [] := by cases want <;> rfl

end ExprLang.MaMa
