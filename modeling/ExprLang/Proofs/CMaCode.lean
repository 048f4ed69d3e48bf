/-
  What the code generator of the CMa keeps.

  Whatever it generates, the generator uses every label once, forgets no global variable and gives
  no two of them the same address (`value_emits`).
-/
import ExprLang.CMa.Generate
import ExprLang.Proofs.Generator
import ExprLang.Proofs.Scopes
import ExprLang.Proofs.CMaMachine

namespace ExprLang

namespace CMa

/-! ## Labels of items -/

@[simp] theorem flatList_nil : Item.flatList [] = [] := rfl

@[simp] theorem flatList_instr (i : Instr) (c : List Item) :
    Item.flatList (.instr i :: c) = i :: Item.flatList c := rfl

@[simp] theorem flatList_block (b c : List Item) :
    Item.flatList (.block b :: c) = Item.flatList b ++ Item.flatList c := rfl

@[simp] theorem flatList_append : ∀ c d : List Item,
    Item.flatList (c ++ d) = Item.flatList c ++ Item.flatList d
  | [], _ => rfl
  | i :: c, d => by rw [List.cons_append, Item.flatList, Item.flatList, flatList_append c d,
      List.append_assoc]

def labels (c : List Item) : List String := labelsOf Instr.name? (Item.flatList c)

/-! ## States of the generator -/

/-- The global variables lie below the next free address, each at an address of its own. -/
structure Laid (s : GenState) : Prop where
  global : ∀ {x a}, s.globals.lookup x = some a → a.storage = .global
  below : ∀ {x a}, s.globals.lookup x = some a → a.address < s.next
  apart : ∀ {x y a b}, s.globals.lookup x = some a → s.globals.lookup y = some b →
    a.address = b.address → x = y

/-- Between `s` and `t` code with the labels `ls` was generated. -/
structure Emits (s t : GenState) (ls : List String) : Prop extends Fresh s t ls where
  kept : ∀ {x a}, s.globals.lookup x = some a → t.globals.lookup x = some a
  laid : Laid s → Laid t

namespace Emits

variable {s t u : GenState} {ls ms ks : List String}

theorem refl (s : GenState) : Emits s s [] := ⟨.refl s, id, id⟩

theorem of_fresh (h : Fresh s t ls) (hg : s.globals = t.globals) (hn : s.next = t.next) :
    Emits s t ls :=
  ⟨h, fun hx => hg ▸ hx, fun hl => ⟨hg ▸ hl.global, hg ▸ hn ▸ hl.below, hg ▸ hl.apart⟩⟩

theorem trans (h : Emits s t ls) (h' : Emits t u ms) : Emits s u (ls ++ ms) :=
  ⟨h.toFresh.trans h'.toFresh, fun hx => h'.kept (h.kept hx), fun hl => h'.laid (h.laid hl)⟩

theorem perm (h : Emits s t ls) (hp : ls.Perm ms) : Emits s t ms :=
  ⟨h.toFresh.perm hp, h.kept, h.laid⟩

end Emits

variable {s t : GenState}

theorem freshLabel_emits {name l : String} (hs : Stem name) (h : (freshLabel name).Gives s l t) :
    Emits s t [l] := by
  have hf := freshLabel_fresh hs h
  obtain ⟨-, rfl⟩ := freshLabel_gives.1 h
  exact .of_fresh hf rfl rfl

/-! ## The parts of generated code -/

section
open Gen

variable {frame : Slots} {c : List Item} {p : Pos}

theorem address_gives {x : String} (h : (address frame x).Gives s c t) :
    s = t ∧ ∃ a, (frame.lookup x).or (s.globals.lookup x) = some a ∧
      c = [.instr (if a.storage = .global then .loadc (.int a.address)
        else .loadrc (.int a.address))] := by
  simp only [address, gives_bind, slot?_gives] at h
  obtain ⟨r, _, ⟨hr, rfl⟩, h⟩ := h
  rcases r with _ | ⟨storage, a, size⟩
  · exact absurd h gives_throw
  · cases storage <;> obtain ⟨rfl, rfl⟩ := gives_pure.1 h <;> exact ⟨rfl, _, hr, rfl⟩

theorem value_unary_gives {op : UnOp} {a : Expr} (h : (value frame (.unary p op a)).Gives s c t) :
    ∃ ca o, (value frame a).Gives s ca t ∧ unaryOp op = .ok o ∧ c = ca ++ [.instr (.unary o)] := by
  simp only [value, gives_bind, gives_pure, gives_lift] at h
  obtain ⟨ca, _, ha, o, _, ⟨ho, rfl⟩, rfl, rfl⟩ := h
  exact ⟨ca, o, ha, ho, rfl⟩

theorem value_binary_gives {op : BinOp} {a b : Expr}
    (h : (value frame (.binary p op a b)).Gives s c t) :
    ∃ ca u cb o, (value frame a).Gives s ca u ∧ (value frame b).Gives u cb t ∧
      binaryOp op = .ok o ∧ c = ca ++ cb ++ [.instr (.binary o)] := by
  simp only [value, gives_bind, gives_pure, gives_lift] at h
  obtain ⟨ca, u, ha, cb, _, hb, o, _, ⟨ho, rfl⟩, rfl, rfl⟩ := h
  exact ⟨ca, u, cb, o, ha, hb, ho, rfl⟩

theorem value_assign_gives {q : Pos} {x : String} {a : Expr}
    (h : (value frame (.assign p (.var q x) a)).Gives s c t) :
    ∃ s' ca cx, (declare frame x).Gives s () s' ∧ (value frame a).Gives s' ca t ∧
      (address frame x).Gives t cx t ∧ c = ca ++ cx ++ [.instr .store] := by
  simp only [value, gives_bind, gives_pure] at h
  obtain ⟨_, s', hd, ca, u, ha, cx, _, hx, rfl, rfl⟩ := h
  obtain ⟨rfl, -⟩ := address_gives hx
  exact ⟨s', ca, cx, hd, ha, hx, rfl⟩

theorem value_var_gives {x : String} (h : (value frame (.var p x)).Gives s c t) :
    ∃ cx, (address frame x).Gives s cx t ∧ c = cx ++ [.instr .load] := by
  simp only [value, gives_bind, gives_pure] at h
  obtain ⟨cx, _, hx, rfl, rfl⟩ := h
  exact ⟨cx, hx, rfl⟩

theorem value_ifThen_gives {e a : Expr} {b : Option Expr}
    (h : (value frame (.ifThen p e a b)).Gives s c t) :
    ∃ i th el en s' ce u ca v cb, Emits s s' [i, th, el, en] ∧ (value frame e).Gives s' ce u ∧
      (value frame a).Gives u ca v ∧ (valueOrZero frame b).Gives v cb t ∧
      c = .instr (.label (.text i)) :: ce ++ .instr (.jumpz (.text el)) ::
        .instr (.label (.text th)) :: ca ++ .instr (.jump (.text en)) ::
        .instr (.label (.text el)) :: cb ++ [.instr (.label (.text en))] := by
  simp only [value, gives_bind, gives_pure] at h
  obtain ⟨i, s₁, hi, th, s₂, hth, el, s₃, hel, en, s', hen, ce, u, he, ca, v, ha, cb, _, hb, rfl,
    rfl⟩ := h
  have h₁ := freshLabel_emits (by simp [Stem]) hi
  have h₂ := freshLabel_emits (by simp [Stem]) hth
  have h₃ := freshLabel_emits (by simp [Stem]) hel
  have h₄ := freshLabel_emits (by simp [Stem]) hen
  exact ⟨i, th, el, en, s', ce, u, ca, v, cb, h₁.trans (h₂.trans (h₃.trans h₄)), he, ha, hb, rfl⟩

theorem value_whileDo_gives {e a : Expr} (h : (value frame (.whileDo p e a)).Gives s c t) :
    ∃ wh en s' ce u ca, Emits s s' [wh, en] ∧ (value frame e).Gives s' ce u ∧
      (value frame a).Gives u ca t ∧
      c = .instr (.loadc (.int 0)) :: .instr (.label (.text wh)) :: ce ++
        ([.instr (.jumpz (.text en)), .instr .pop, .block ca, .instr (.jump (.text wh)),
          .instr (.label (.text en))] : List Item) := by
  simp only [value, gives_bind, gives_pure] at h
  obtain ⟨wh, s₁, hwh, en, s', hen, ce, u, he, ca, _, ha, rfl, rfl⟩ := h
  have h₁ := freshLabel_emits (by simp [Stem]) hwh
  have h₂ := freshLabel_emits (by simp [Stem]) hen
  exact ⟨wh, en, s', ce, u, ca, h₁.trans h₂, he, ha, rfl⟩

theorem value_loop_gives {n a : Expr} (h : (value frame (.loop p n a)).Gives s c t) :
    ∃ lo en s' cn u ca, Emits s s' [lo, en] ∧ (value frame n).Gives s' cn u ∧
      (value frame a).Gives u ca t ∧
      c = .instr (.loadc (.int 0)) :: cn ++
        ([.instr (.label (.text lo)), .instr .dup, .instr (.jumpz (.text en)),
          .instr (.unary .dec), .instr .swap, .instr .pop] : List Item) ++ ca ++
        ([.instr .swap, .instr (.jump (.text lo)), .instr (.label (.text en)),
          .instr .pop] : List Item) := by
  simp only [value, gives_bind, gives_pure] at h
  obtain ⟨lo, s₁, hlo, en, s', hen, cn, u, hn, ca, _, ha, rfl, rfl⟩ := h
  have h₁ := freshLabel_emits (by simp [Stem]) hlo
  have h₂ := freshLabel_emits (by simp [Stem]) hen
  exact ⟨lo, en, s', cn, u, ca, h₁.trans h₂, hn, ha, rfl⟩

theorem value_doWhile_gives {e a : Expr} (h : (value frame (.doWhile p e a)).Gives s c t) :
    ∃ dw en s' ca u ce, Emits s s' [dw, en] ∧ (value frame a).Gives s' ca u ∧
      (value frame e).Gives u ce t ∧
      c = .instr (.label (.text dw)) :: ca ++ ce ++ ([.instr (.jumpz (.text en)),
        .instr (.jump (.text dw)), .instr (.label (.text en))] : List Item) := by
  simp only [value, gives_bind, gives_pure] at h
  obtain ⟨dw, s₁, hdw, en, s', hen, ca, u, ha, ce, _, he, rfl, rfl⟩ := h
  have h₁ := freshLabel_emits (by simp [Stem]) hdw
  have h₂ := freshLabel_emits (by simp [Stem]) hen
  exact ⟨dw, en, s', ca, u, ce, h₁.trans h₂, ha, he, rfl⟩

theorem value_proc_gives {params locals : List String} {body : Expr}
    (h : (value frame (.proc p params locals body)).Gives s c t) :
    ∃ pr en s' cb, Emits s s' [pr, en] ∧ (value (procFrame params locals) body).Gives s' cb t ∧
      c = ([.instr (.jump (.text en)), .instr (.label (.text pr)), .instr .enter,
          .instr (.alloc (.int (localBytes (procFrame params locals))))] : List Item) ++ cb ++
        ([.instr (.loadrc (.int (-16))), .instr .store, .instr .pop, .instr .ret,
          .instr (.label (.text en)), .instr (.loadc (.text pr))] : List Item) := by
  simp only [value, gives_bind, gives_pure] at h
  obtain ⟨pr, s₁, hpr, en, s', hen, cb, _, hb, rfl, rfl⟩ := h
  have h₁ := freshLabel_emits (by simp [Stem]) hpr
  have h₂ := freshLabel_emits (by simp [Stem]) hen
  exact ⟨pr, en, s', cb, h₁.trans h₂, hb, rfl⟩

theorem value_call_gives {f : Expr} {args : List Expr}
    (h : (value frame (.call p f args)).Gives s c t) :
    ∃ cas u cf, (valuesReversed frame args).Gives s cas u ∧ (value frame f).Gives u cf t ∧
      c = cas ++ .instr .mark :: cf ++
        ([.instr .call, .instr .pop,
          .instr (.slide (.int (8 * (args.length : Int) - 8)))] : List Item) := by
  simp only [value, gives_bind, gives_pure] at h
  obtain ⟨cas, u, hargs, cf, _, hf, rfl, rfl⟩ := h
  exact ⟨cas, u, cf, hargs, hf, rfl⟩

theorem valueOfLast_gives {a b : Expr} {es : List Expr}
    (h : (valueOfLast frame (a :: b :: es)).Gives s c t) :
    ∃ ca u cs, (value frame a).Gives s ca u ∧ (valueOfLast frame (b :: es)).Gives u cs t ∧
      c = ca ++ .instr .pop :: cs := by
  simp only [valueOfLast, gives_bind, gives_pure] at h
  obtain ⟨ca, u, ha, cs, _, hs, rfl, rfl⟩ := h
  exact ⟨ca, u, cs, ha, hs, rfl⟩

theorem valuesReversed_gives {a : Expr} {es : List Expr}
    (h : (valuesReversed frame (a :: es)).Gives s c t) :
    ∃ cs u ca, (valuesReversed frame es).Gives s cs u ∧ (value frame a).Gives u ca t ∧
      c = cs ++ ca := by
  simp only [valuesReversed, gives_bind, gives_pure] at h
  obtain ⟨cs, u, hs, ca, _, ha, rfl, rfl⟩ := h
  exact ⟨cs, u, ca, hs, ha, rfl⟩

end

/-! ## Labels and addresses -/

theorem declare_emits {frame : Slots} {x : String} (h : (declare frame x).Gives s () t) :
    Emits s t [] := by
  simp only [declare, Gen.gives_bind, slot?_gives] at h
  obtain ⟨r, _, ⟨hr, rfl⟩, h⟩ := h
  split at h
  · rename_i hnone
    obtain rfl := Gen.gives_modify.1 h
    have hx : s.globals.lookup x = none := by
      rw [Option.isNone_iff_eq_none.1 hnone, Option.or_eq_none_iff] at hr; exact hr.2
    refine ⟨.of_eq rfl, fun {y a} hy => ?_, fun hl => ⟨fun {y a} hy => ?_, fun {y a} hy => ?_,
      fun {y z a b} hy hz hab => ?_⟩⟩
    · rw [Slots.lookup_put, if_neg (fun he => by simp [he, hx] at hy)]; exact hy
    · rw [Slots.lookup_put] at hy
      split at hy
      · cases hy; rfl
      · exact hl.global hy
    · rw [Slots.lookup_put] at hy
      split at hy
      · cases hy; simp only; omega
      · have := hl.below hy; simp only; omega
    · rw [Slots.lookup_put] at hy hz
      -- The new variable lies at the next free address, above all others.
      split at hy <;> split at hz
      · simp_all
      · cases hy; have := hl.below hz; simp only at hab; omega
      · cases hz; have := hl.below hy; simp only at hab; omega
      · exact hl.apart hy hz hab
  · obtain ⟨-, rfl⟩ := Gen.gives_pure.1 h; exact .refl s

theorem address_emits {frame : Slots} {x : String} {c : List Item}
    (h : (address frame x).Gives s c t) : Emits s t (labels c) := by
  obtain ⟨rfl, a, -, rfl⟩ := address_gives h
  split <;> exact .refl s

mutual

/-- **Generated code uses every label once**, and its variables stay apart. -/
theorem value_emits (frame : Slots) : ∀ (e : Expr) {s t : GenState} {c : List Item},
    (value frame e).Gives s c t → Emits s t (labels c)
  | .number _ _, s, t, c, h => by
    obtain ⟨rfl, rfl⟩ := Gen.gives_pure.1 h; exact .refl s
  | .unary _ _ a, s, t, c, h => by
    obtain ⟨ca, o, ha, -, rfl⟩ := value_unary_gives h
    exact (value_emits frame a ha).perm (by simp [labels, labelsOf_cons, Instr.name?])
  | .binary _ _ a b, s, t, c, h => by
    obtain ⟨ca, u, cb, o, ha, hb, -, rfl⟩ := value_binary_gives h
    exact ((value_emits frame a ha).trans (value_emits frame b hb)).perm
      (by simp [labels, labelsOf_cons, Instr.name?])
  | .index _ a b, s, t, c, h => by
    simp only [value, Gen.gives_bind] at h
    obtain ⟨_, _, _, _, _, _, h⟩ := h; exact absurd h Gen.gives_throw
  | .assign _ (.var _ x) a, s, t, c, h => by
    obtain ⟨s', ca, cx, hd, ha, hx, rfl⟩ := value_assign_gives h
    exact ((declare_emits hd).trans ((value_emits frame a ha).trans (address_emits hx))).perm
      (by simp [labels, labelsOf_cons, Instr.name?])
  | .var _ x, s, t, c, h => by
    obtain ⟨cx, hx, rfl⟩ := value_var_gives h
    exact (address_emits hx).perm (by simp [labels, labelsOf_cons, Instr.name?])
  | .sequence _ parts, s, t, c, h => by
    rw [value] at h; exact valueOfLast_emits frame parts h
  | .ifThen _ e a b, s, t, c, h => by
    obtain ⟨i, th, el, en, s', ce, u, ca, v, cb, hl, he, ha, hb, rfl⟩ := value_ifThen_gives h
    refine (hl.trans ((value_emits frame e he).trans ((value_emits frame a ha).trans
      (valueOrZero_emits frame b hb)))).perm (List.perm_iff_count.2 fun l => ?_)
    simp only [labels, flatList_append, flatList_instr, labelsOf_append, labelsOf_cons,
      Instr.name?, List.count_append, List.count_cons, Option.toList]
    simp; omega
  | .whileDo _ e a, s, t, c, h => by
    obtain ⟨wh, en, s', ce, u, ca, hl, he, ha, rfl⟩ := value_whileDo_gives h
    refine (hl.trans ((value_emits frame e he).trans (value_emits frame a ha))).perm
      (List.perm_iff_count.2 fun l => ?_)
    simp [labels, labelsOf_cons, Instr.name?, List.count_append, List.count_cons]; omega
  | .loop _ n a, s, t, c, h => by
    obtain ⟨lo, en, s', cn, u, ca, hl, hn, ha, rfl⟩ := value_loop_gives h
    refine (hl.trans ((value_emits frame n hn).trans (value_emits frame a ha))).perm
      (List.perm_iff_count.2 fun l => ?_)
    simp [labels, labelsOf_cons, Instr.name?, List.count_append, List.count_cons]; omega
  | .doWhile _ e a, s, t, c, h => by
    obtain ⟨dw, en, s', ca, u, ce, hl, ha, he, rfl⟩ := value_doWhile_gives h
    refine (hl.trans ((value_emits frame a ha).trans (value_emits frame e he))).perm
      (List.perm_iff_count.2 fun l => ?_)
    simp [labels, labelsOf_cons, Instr.name?, List.count_append, List.count_cons]; omega
  | .proc _ params locals body, s, t, c, h => by
    obtain ⟨pr, en, s', cb, hl, hb, rfl⟩ := value_proc_gives h
    refine (hl.trans (value_emits _ body hb)).perm (List.perm_iff_count.2 fun l => ?_)
    simp [labels, labelsOf_cons, Instr.name?, List.count_append, List.count_cons]
  | .call _ f args, s, t, c, h => by
    obtain ⟨cas, u, cf, hargs, hf, rfl⟩ := value_call_gives h
    exact ((valuesReversed_emits frame args hargs).trans (value_emits frame f hf)).perm
      (by simp [labels, labelsOf_cons, Instr.name?])
  | .bool .., _, _, _, h | .string .., _, _, _, h | .char .., _, _, _, h | .array .., _, _, _, h
  | .dict .., _, _, _, h | .assign _ (.bare _) _, _, _, _, h | .lock .., _, _, _, h
  | .letIn .., _, _, _, h | .lambda .., _, _, _, h | .struct .., _, _, _, h
  | .member .., _, _, _, h | .memberAssign .., _, _, _, h | .this .., _, _, _, h
  | .importFile .., _, _, _, h | .trap .., _, _, _, h => by
    simp only [value] at h; exact absurd h Gen.gives_throw

theorem valueOfLast_emits (frame : Slots) : ∀ (es : List Expr) {s t : GenState} {c : List Item},
    (valueOfLast frame es).Gives s c t → Emits s t (labels c)
  | [], _, _, _, h => absurd h Gen.gives_throw
  | [a], _, _, _, h => value_emits frame a h
  | a :: b :: es, s, t, c, h => by
    obtain ⟨ca, u, cs, ha, hs, rfl⟩ := valueOfLast_gives h
    exact ((value_emits frame a ha).trans (valueOfLast_emits frame (b :: es) hs)).perm
      (by simp [labels, labelsOf_cons, Instr.name?])

theorem valuesReversed_emits (frame : Slots) : ∀ (es : List Expr) {s t : GenState}
    {c : List Item}, (valuesReversed frame es).Gives s c t → Emits s t (labels c)
  | [], s, _, _, h => by obtain ⟨rfl, rfl⟩ := Gen.gives_pure.1 h; exact .refl s
  | a :: es, s, t, c, h => by
    obtain ⟨cs, u, ca, hs, ha, rfl⟩ := valuesReversed_gives h
    exact ((valuesReversed_emits frame es hs).trans (value_emits frame a ha)).perm
      (by simp [labels])

theorem valueOrZero_emits (frame : Slots) : ∀ (e : Option Expr) {s t : GenState}
    {c : List Item}, (valueOrZero frame e).Gives s c t → Emits s t (labels c)
  | none, s, _, _, h => by obtain ⟨rfl, rfl⟩ := Gen.gives_pure.1 h; exact .refl s
  | some a, _, _, _, h => value_emits frame a h

end

end CMa

end ExprLang
