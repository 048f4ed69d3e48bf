/-
  The forms of CMa code.

  `Codes G frame e c` says what the code of every expression is made of: the code of its parts, with
  a few instructions around them.  It forgets the states of the generator between the parts; what is
  left of them are the numbers of the labels, and the variables `G`.

  * `value_codes`: generated code has this form;
  * `Expr.Has Q e`: some expression in `e` is as `Q` says, and `Expr.has_iff` says so by its parts.
-/
import ExprLang.Proofs.CMaMeaning

namespace ExprLang

/-! ## Parts of expressions -/

def Expr.parts : Expr → List Expr
  | .array _ es | .sequence _ es => es
  | .dict _ entries => entries.flatMap fun (k, v) => [k, v]
  | .unary _ _ a | .assign _ _ a | .lock _ _ a | .lambda _ _ a _ | .proc _ _ _ a
  | .member _ a _ _ | .memberAssign _ _ a => [a]
  | .binary _ _ a b | .index _ a b | .loop _ a b | .whileDo _ a b | .doWhile _ a b => [a, b]
  | .letIn _ bindings a => bindings.map (·.value) ++ [a]
  | .ifThen _ a b c => a :: b :: c.toList
  | .call _ f args => f :: args
  | .struct _ fields parent => fields.map (·.value) ++ parent.toList
  | .number .. | .bool .. | .string .. | .char .. | .var .. | .this _ | .importFile .. | .trap _ =>
    []

/-- The second expression is the first one itself or stands somewhere in it. -/
inductive Expr.Contains (root : Expr) : Expr → Prop where
  | self : Contains root root
  | part {e a : Expr} (h : Contains root e) (ha : a ∈ e.parts) : Contains root a

/-- `s` is how some number in the expression is written. -/
def Expr.HasNumber (root : Expr) (s : String) : Prop := ∃ p, root.Contains (.number p s)

namespace Expr

variable {e a : Expr} {Q : Expr → Prop} {lits : String → Prop} {p : Pos}

def Has (Q : Expr → Prop) (e : Expr) : Prop := ∃ x, e.Contains x ∧ Q x

def IsWhile : Expr → Prop
  | .whileDo .. => True
  | _ => False

def IsDoWhile : Expr → Prop
  | .doWhile .. => True
  | _ => False

def IsCall : Expr → Prop
  | .call .. => True
  | _ => False

/-- What stands in a part stands in the whole. -/
theorem Contains.of_part {x : Expr} (ha : a ∈ e.parts) (h : a.Contains x) : e.Contains x := by
  induction h with
  | self => exact .part .self ha
  | part _ hx ih => exact .part ih hx

theorem Contains.self_or_part {x : Expr} (h : e.Contains x) :
    x = e ∨ ∃ a ∈ e.parts, a.Contains x := by
  induction h with
  | self => exact .inl rfl
  | part _ hx ih =>
    rcases ih with rfl | ⟨a, ha, h⟩
    · exact .inr ⟨_, hx, .self⟩
    · exact .inr ⟨a, ha, .part h hx⟩

theorem has_iff : e.Has Q ↔ Q e ∨ ∃ a ∈ e.parts, a.Has Q := by
  constructor
  · rintro ⟨x, hx, hQ⟩
    rcases hx.self_or_part with rfl | ⟨a, ha, h⟩
    · exact .inl hQ
    · exact .inr ⟨a, ha, x, h, hQ⟩
  · rintro (hQ | ⟨a, ha, x, h, hQ⟩)
    · exact ⟨e, .self, hQ⟩
    · exact ⟨x, .of_part ha h, hQ⟩

theorem not_has_part (h : ¬ e.Has Q) (ha : a ∈ e.parts) : ¬ a.Has Q :=
  fun haQ => h (has_iff.2 (.inr ⟨a, ha, haQ⟩))

theorem not_has_of_parts (hQ : ¬ Q e) (h : ∀ a ∈ e.parts, ¬ a.Has Q) : ¬ e.Has Q := by
  rw [has_iff]
  rintro (he | ⟨a, ha, haQ⟩)
  · exact hQ he
  · exact h a ha haQ

/-- The numbers in the expression are written as `lits` says. -/
def Numbers (lits : String → Prop) (e : Expr) : Prop := ∀ s, e.HasNumber s → lits s

theorem Numbers.number {s : String} (h : (Expr.number p s).Numbers lits) : lits s := h s ⟨p, .self⟩

theorem Numbers.part (h : e.Numbers lits) (ha : a ∈ e.parts) : a.Numbers lits := by
  rintro s ⟨p, hs⟩
  exact h s ⟨p, hs.of_part ha⟩

theorem Numbers.tail {es : List Expr} (h : (Expr.sequence p (a :: es)).Numbers lits) :
    (Expr.sequence p es).Numbers lits := by
  rintro s ⟨q, hs⟩
  obtain hs | ⟨b, hb, hs⟩ := hs.self_or_part
  · cases hs
  · exact h s ⟨q, hs.of_part (.tail a hb)⟩

theorem not_has_tail {es : List Expr} (h : ¬ (Expr.sequence p (a :: es)).Has Q)
    (hQ : ¬ Q (.sequence p es)) : ¬ (Expr.sequence p es).Has Q :=
  not_has_of_parts hQ fun _ hx => not_has_part h (.tail a hx)

end Expr

namespace CMa

/-! ## Forms -/

def addressOf (slot : Slot) : Instr :=
  if slot.storage = .global then .loadc (.int slot.address) else .loadrc (.int slot.address)

def numbered (name : String) (n : Nat) : Cell := .text (name ++ toString n)

/-- An alternative around the code of its parts. -/
def ifItems (i th el en : Nat) (ce ca cb : List Item) : List Item :=
  .instr (.label (numbered "if" i)) :: ce ++ .instr (.jumpz (numbered "else" el)) ::
    .instr (.label (numbered "then" th)) :: ca ++ .instr (.jump (numbered "endif" en)) ::
    .instr (.label (numbered "else" el)) :: cb ++ [.instr (.label (numbered "endif" en))]

mutual

/-- `c` is code for an expression, with the variables `G` and those of the `frame` around it. -/
inductive Codes (G : Slots) : Slots → Expr → List Item → Prop where
  | number {frame p text} : Codes G frame (.number p text) [.instr (.loadc (.text text))]
  | unary {frame p op o a ca} (ha : Codes G frame a ca) :
      Codes G frame (.unary p op a) (ca ++ [.instr (.unary o)])
  | binary {frame p op o a b ca cb} (ha : Codes G frame a ca) (hb : Codes G frame b cb) :
      Codes G frame (.binary p op a b) (ca ++ cb ++ [.instr (.binary o)])
  | assign {frame p q x a slot ca} (ha : Codes G frame a ca)
      (hx : (frame.lookup x).or (G.lookup x) = some slot) :
      Codes G frame (.assign p (.var q x) a) (ca ++ [.instr (addressOf slot), .instr .store])
  | var {frame p x slot} (hx : (frame.lookup x).or (G.lookup x) = some slot) :
      Codes G frame (.var p x) [.instr (addressOf slot), .instr .load]
  | last {frame p a ca} (ha : Codes G frame a ca) : Codes G frame (.sequence p [a]) ca
  | before {frame p a b es ca cs} (ha : Codes G frame a ca)
      (hs : Codes G frame (.sequence p (b :: es)) cs) :
      Codes G frame (.sequence p (a :: b :: es)) (ca ++ .instr .pop :: cs)
  | ifThen {frame p e a b ce ca cb i th el en} (he : Codes G frame e ce)
      (ha : Codes G frame a ca) (hb : Codes G frame b cb) :
      Codes G frame (.ifThen p e a (some b)) (ifItems i th el en ce ca cb)
  | ifOnly {frame p e a ce ca i th el en} (he : Codes G frame e ce) (ha : Codes G frame a ca) :
      Codes G frame (.ifThen p e a none) (ifItems i th el en ce ca [.instr (.loadc (.int 0))])
  | whileDo {frame p e a ce ca wh en} (he : Codes G frame e ce) (ha : Codes G frame a ca) :
      Codes G frame (.whileDo p e a)
        (.instr (.loadc (.int 0)) :: .instr (.label (numbered "while" wh)) :: ce ++
          [.instr (.jumpz (numbered "end_while" en)), .instr .pop, .block ca,
            .instr (.jump (numbered "while" wh)), .instr (.label (numbered "end_while" en))])
  | loop {frame p n a cn ca lo en} (hn : Codes G frame n cn) (ha : Codes G frame a ca) :
      Codes G frame (.loop p n a)
        (.instr (.loadc (.int 0)) :: cn ++
          [.instr (.label (numbered "loop" lo)), .instr .dup,
            .instr (.jumpz (numbered "endloop" en)), .instr (.unary .dec), .instr .swap,
            .instr .pop] ++ ca ++
          [.instr .swap, .instr (.jump (numbered "loop" lo)),
            .instr (.label (numbered "endloop" en)), .instr .pop])
  | doWhile {frame p e a ce ca dw en} (ha : Codes G frame a ca) (he : Codes G frame e ce) :
      Codes G frame (.doWhile p e a)
        (.instr (.label (numbered "dowhile" dw)) :: ca ++ ce ++
          [.instr (.jumpz (numbered "enddowhile" en)), .instr (.jump (numbered "dowhile" dw)),
            .instr (.label (numbered "enddowhile" en))])
  | proc {frame p params locals body cb pr en} (hb : Codes G (procFrame params locals) body cb) :
      Codes G frame (.proc p params locals body)
        ([.instr (.jump (numbered "endproc" en)), .instr (.label (numbered "proc" pr)),
            .instr .enter, .instr (.alloc (.int (localBytes (procFrame params locals))))] ++ cb ++
          [.instr (.loadrc (.int (-16))), .instr .store, .instr .pop, .instr .ret,
            .instr (.label (numbered "endproc" en)), .instr (.loadc (numbered "proc" pr))])
  | call {frame p f args cas cf} (hargs : CodesArgs G frame args cas) (hf : Codes G frame f cf) :
      Codes G frame (.call p f args) (cas ++ .instr .mark :: cf ++
        [.instr .call, .instr .pop, .instr (.slide (.int (8 * (args.length : Int) - 8)))])

/-- `c` is code for the arguments of a call, the last one first. -/
inductive CodesArgs (G : Slots) : Slots → List Expr → List Item → Prop where
  | nil {frame} : CodesArgs G frame [] []
  | cons {frame a es ca cs} (ha : Codes G frame a ca) (hs : CodesArgs G frame es cs) :
      CodesArgs G frame (a :: es) (cs ++ ca)

end

/-! ## Generated code has these forms -/

open Gen

variable {G : Slots}

theorem address_codes {frame : Slots} {x : String} {s t : GenState} {c : List Item}
    (h : (address frame x).Gives s c t) (hk : Known t G) :
    ∃ slot, (frame.lookup x).or (G.lookup x) = some slot ∧ c = [.instr (addressOf slot)] := by
  obtain ⟨rfl, slot, hs, rfl⟩ := address_gives h
  refine ⟨slot, ?_, rfl⟩
  rcases Option.or_eq_some_iff.1 hs with hf | ⟨hf, hg⟩
  · simp [hf]
  · simp [hf, hk x slot hg]

mutual

/-- **Generated code is made of the code of the parts.** -/
theorem value_codes (frame : Slots) : ∀ (e : Expr) {s t : GenState} {c : List Item},
    (value frame e).Gives s c t → Known t G → Codes G frame e c
  | .number _ _, s, t, c, h, _ => by
    obtain ⟨rfl, rfl⟩ := gives_pure.1 h
    exact .number
  | .unary _ _ a, s, t, c, h, hk => by
    obtain ⟨ca, o, ha, -, rfl⟩ := value_unary_gives h
    exact .unary (value_codes frame a ha hk)
  | .binary _ _ a b, s, t, c, h, hk => by
    obtain ⟨ca, u, cb, o, ha, hb, -, rfl⟩ := value_binary_gives h
    exact .binary (value_codes frame a ha (hk.before (value_emits frame b hb)))
      (value_codes frame b hb hk)
  | .index _ a b, s, t, c, h, _ => by
    simp only [value, gives_bind] at h
    obtain ⟨_, _, _, _, _, _, h⟩ := h
    exact absurd h gives_throw
  | .assign _ (.var _ x) a, s, t, c, h, hk => by
    obtain ⟨s', ca, cx, -, ha, hx, rfl⟩ := value_assign_gives h
    obtain ⟨slot, hslot, rfl⟩ := address_codes hx hk
    rw [List.append_assoc]
    exact .assign (value_codes frame a ha hk) hslot
  | .var _ x, s, t, c, h, hk => by
    obtain ⟨cx, hx, rfl⟩ := value_var_gives h
    obtain ⟨slot, hslot, rfl⟩ := address_codes hx hk
    exact .var hslot
  | .sequence p parts, s, t, c, h, hk => by
    rw [value] at h
    exact valueOfLast_codes frame p parts h hk
  | .ifThen _ e a none, s, t, c, h, hk => by
    simp only [value, valueOrZero, gives_bind, gives_pure, freshLabel_gives] at h
    obtain ⟨_, _, ⟨rfl, -⟩, _, _, ⟨rfl, -⟩, _, _, ⟨rfl, -⟩, _, _, ⟨rfl, -⟩, ce, u, he, ca, v, ha,
      cb, _, ⟨rfl, rfl⟩, rfl, rfl⟩ := h
    exact .ifOnly (value_codes frame e he (hk.before (value_emits frame a ha)))
      (value_codes frame a ha hk)
  | .ifThen _ e a (some b), s, t, c, h, hk => by
    simp only [value, valueOrZero, gives_bind, gives_pure, freshLabel_gives] at h
    obtain ⟨_, _, ⟨rfl, -⟩, _, _, ⟨rfl, -⟩, _, _, ⟨rfl, -⟩, _, _, ⟨rfl, -⟩, ce, u, he, ca, v, ha,
      cb, _, hb, rfl, rfl⟩ := h
    have hkv := hk.before (value_emits frame b hb)
    exact .ifThen (value_codes frame e he (hkv.before (value_emits frame a ha)))
      (value_codes frame a ha hkv) (value_codes frame b hb hk)
  | .whileDo _ e a, s, t, c, h, hk => by
    simp only [value, gives_bind, gives_pure, freshLabel_gives] at h
    obtain ⟨_, _, ⟨rfl, -⟩, _, _, ⟨rfl, -⟩, ce, u, he, ca, _, ha, rfl, rfl⟩ := h
    exact .whileDo (value_codes frame e he (hk.before (value_emits frame a ha)))
      (value_codes frame a ha hk)
  | .loop _ n a, s, t, c, h, hk => by
    simp only [value, gives_bind, gives_pure, freshLabel_gives] at h
    obtain ⟨_, _, ⟨rfl, -⟩, _, _, ⟨rfl, -⟩, cn, u, hn, ca, _, ha, rfl, rfl⟩ := h
    exact .loop (value_codes frame n hn (hk.before (value_emits frame a ha)))
      (value_codes frame a ha hk)
  | .doWhile _ e a, s, t, c, h, hk => by
    simp only [value, gives_bind, gives_pure, freshLabel_gives] at h
    obtain ⟨_, _, ⟨rfl, -⟩, _, _, ⟨rfl, -⟩, ca, u, ha, ce, _, he, rfl, rfl⟩ := h
    exact .doWhile (value_codes frame a ha (hk.before (value_emits frame e he)))
      (value_codes frame e he hk)
  | .proc _ params locals body, s, t, c, h, hk => by
    simp only [value, gives_bind, gives_pure, freshLabel_gives] at h
    obtain ⟨_, _, ⟨rfl, -⟩, _, _, ⟨rfl, -⟩, cb, _, hb, rfl, rfl⟩ := h
    exact .proc (value_codes (procFrame params locals) body hb hk)
  | .call _ f args, s, t, c, h, hk => by
    obtain ⟨cas, u, cf, hargs, hf, rfl⟩ := value_call_gives h
    exact .call (valuesReversed_codes frame args hargs (hk.before (value_emits frame f hf)))
      (value_codes frame f hf hk)
  | .bool .., _, _, _, h, _ | .string .., _, _, _, h, _ | .char .., _, _, _, h, _
  | .array .., _, _, _, h, _ | .dict .., _, _, _, h, _ | .assign _ (.bare _) _, _, _, _, h, _
  | .lock .., _, _, _, h, _ | .letIn .., _, _, _, h, _ | .lambda .., _, _, _, h, _
  | .struct .., _, _, _, h, _ | .member .., _, _, _, h, _ | .memberAssign .., _, _, _, h, _
  | .this .., _, _, _, h, _ | .importFile .., _, _, _, h, _ | .trap .., _, _, _, h, _ => by
    simp only [value] at h
    exact absurd h gives_throw

theorem valueOfLast_codes (frame : Slots) (p : Pos) : ∀ (es : List Expr) {s t : GenState}
    {c : List Item}, (valueOfLast frame es).Gives s c t → Known t G →
    Codes G frame (.sequence p es) c
  | [], _, _, _, h, _ => absurd h gives_throw
  | [a], _, _, _, h, hk => .last (value_codes frame a h hk)
  | a :: b :: es, s, t, c, h, hk => by
    obtain ⟨ca, u, cs, ha, hs, rfl⟩ := valueOfLast_gives h
    exact .before (value_codes frame a ha (hk.before (valueOfLast_emits frame _ hs)))
      (valueOfLast_codes frame p (b :: es) hs hk)

theorem valuesReversed_codes (frame : Slots) : ∀ (es : List Expr) {s t : GenState}
    {c : List Item}, (valuesReversed frame es).Gives s c t → Known t G → CodesArgs G frame es c
  | [], _, _, _, h, _ => by
    obtain ⟨rfl, rfl⟩ := gives_pure.1 h
    exact .nil
  | a :: es, s, t, c, h, hk => by
    obtain ⟨cs, u, ca, hs, ha, rfl⟩ := valuesReversed_gives h
    exact .cons (value_codes frame a ha hk)
      (valuesReversed_codes frame es hs (hk.before (value_emits frame a ha)))

end

end CMa

end ExprLang
