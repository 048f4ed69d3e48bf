/-
  CMa code does what the expression says.

  While code for an expression runs, the words of the memory fall into two parts: the words at the
  addresses of the global variables, which hold the store, and the stack above them.  The value of
  the expression is pushed on the stack, and no word below it is touched that is not a variable's.

  * `value_runs` is the simulation, by recursion on the evaluation: code that stands anywhere in a
    program, started with any stack, ends behind itself with the value pushed;
  * `compile_preserves_meaning` is the statement about compiled expressions.
-/
import ExprLang.Code.Compile
import ExprLang.Proofs.CMaCode
import ExprLang.Proofs.Evaluation

namespace ExprLang.CMa

/-! ## Variables and the memory -/

def IsAddress (G : Slots) (a : Int) : Prop := ∃ x slot, G.lookup x = some slot ∧ slot.address = a

/-- The memory holds the store at the addresses of the variables. -/
def Holds (G : Slots) (S : Store) (mem : Int → Int) : Prop :=
  ∀ x slot v, G.lookup x = some slot → S x = some v → mem slot.address = v

/-- No variable lies above `sp`. -/
def Below (G : Slots) (sp : Int) : Prop := ∀ a, IsAddress G a → a ≤ sp

/-- The words from `sp` down to `base` are the operand stack, its top first. -/
def Operands (mem : Int → Int) (base : Int) : Int → List Int → Prop
  | sp, [] => sp = base
  | sp, v :: s => mem sp = v ∧ Operands mem base (sp - 8) s

/-- The program and the variables that code belongs to. -/
structure Program (P : List Instr) (G : Slots) : Prop where
  labels : (labelsOf Instr.name? P).Nodup
  global : ∀ {x slot}, G.lookup x = some slot → slot.storage = .global
  apart : ∀ {x y a b}, G.lookup x = some a → G.lookup y = some b → a.address = b.address → x = y

variable {P : List Instr} {G : Slots}

theorem Holds.congr {S : Store} {mem mem' : Int → Int} (h : Holds G S mem)
    (he : ∀ a, IsAddress G a → mem' a = mem a) : Holds G S mem' :=
  fun x slot v hx hv => (he _ ⟨x, slot, hx, rfl⟩).trans (h x slot v hx hv)

theorem Holds.set (hP : Program P G) {S : Store} {mem : Int → Int} (h : Holds G S mem) {x : String}
    {slot : Slot} (hx : G.lookup x = some slot) (v : Int) :
    Holds G (S.set x v) (Function.update mem slot.address v) := by
  intro y a w hy hw
  by_cases hyx : y = x
  · subst hyx
    obtain rfl : slot = a := Option.some.inj (hx.symm.trans hy)
    obtain rfl : v = w := by simpa [Store.set] using hw
    simp
  · have hne : a.address ≠ slot.address := fun he => hyx (hP.apart hy hx he)
    rw [Function.update_of_ne hne]
    exact h y a w hy (by simpa [Store.set, hyx] using hw)

/-- A word is pushed, and the memory holds the store `S`. -/
structure Computes (G : Slots) (m : State) (v : Int) (S : Store) (m' : State) : Prop
    extends Pushes (IsAddress G) m v m' where
  holds : Holds G S m'.mem

variable {m m₁ m₂ : State} {v w : Int} {S S₁ S₂ : Store}

theorem Holds.push (h : Holds G S m.mem) (hb : Below G m.sp) (w : Int) :
    Holds G S (m.push w).mem :=
  h.congr fun a ha => Function.update_of_ne (by have := hb a ha; omega) ..

theorem Below.mono {a b : Int} (h : Below G a) (hab : a ≤ b) : Below G b :=
  fun c hc => Int.le_trans (h c hc) hab

theorem Below.not_isAddress {a : Int} (h : Below G a) : ¬ IsAddress G (a + 8) :=
  fun ha => by have := h _ ha; omega

namespace Computes

/-- Only words above the pushed one have changed since. -/
theorem congr (h : Computes G m v S m₁) (hb : Below G m.sp) (hsp : m₂.sp = m₁.sp)
    (hfp : m₂.fp = m₁.fp) (hmem : ∀ a ≤ m₁.sp, m₂.mem a = m₁.mem a) : Computes G m v S m₂ := by
  have hm : ∀ a ≤ m.sp + 8, m₂.mem a = m₁.mem a := fun a ha => hmem a (h.sp ▸ ha)
  refine ⟨⟨hsp.trans h.sp, hfp.trans h.fp, (hm _ (Int.le_refl _)).trans h.mem, fun a ha hA => ?_⟩,
    h.holds.congr fun a ha => hm a ?_⟩
  · exact (hm a (by omega)).trans (h.keeps a ha hA)
  · have := hb a ha; omega

theorem next (h : Computes G m v S m₁) : Computes G m v S m₁.next := ⟨h.toPushes.next, h.holds⟩

theorem jumpTo (h : Computes G m v S m₁) (n : Nat) : Computes G m v S (m₁.jumpTo n) :=
  ⟨h.toPushes.jumpTo n, h.holds⟩

/-- Where the code starts does not matter. -/
theorem of_jumpTo {n : Nat} (h : Computes G (m.jumpTo n) v S m₁) : Computes G m v S m₁ :=
  ⟨⟨h.sp, h.fp, h.mem, h.keeps⟩, h.holds⟩

theorem push (h : Holds G S m.mem) (hb : Below G m.sp) (w : Int) : Computes G m w S (m.push w) :=
  ⟨.push _ m w, h.push hb w⟩

theorem after (h : Computes G m v S m₁) (h' : Computes G m₁.drop w S₁ m₂) :
    Computes G m w S₁ m₂ :=
  ⟨h.toPushes.after h'.toPushes, h'.holds⟩

theorem under (h : Computes G m v S m₁) (h' : Computes G m₁ w S₁ m₂) (hb : Below G m.sp) :
    Computes G m v S₁ m₂.drop :=
  ⟨h.toPushes.under h'.toPushes hb.not_isAddress, h'.holds⟩

theorem below (h : Computes G m v S m₁) (hb : Below G m.sp) : Below G m₁.sp :=
  hb.mono (by rw [h.sp]; omega)

theorem below_drop (h : Computes G m v S m₁) (hb : Below G m.sp) : Below G m₁.drop.sp :=
  hb.mono (by simp [h.sp])

theorem replace (h : Computes G m v S m₁) (hb : Below G m.sp) (w : Int) :
    Computes G m w S (m₁.drop.push w) :=
  h.after (.push (m := m₁.drop) h.holds (h.below_drop hb) w)

theorem write (hP : Program P G) (h : Computes G m v S m₁) (hb : Below G m.sp) {x : String}
    {slot : Slot} (hx : G.lookup x = some slot) (w : Int) :
    Computes G m v (S.set x w) (m₁.write slot.address w) := by
  have hA : IsAddress G slot.address := ⟨x, slot, hx, rfl⟩
  have hne : ∀ a, ¬ IsAddress G a → a ≠ slot.address := fun a ha he => ha (he ▸ hA)
  refine ⟨⟨h.sp, h.fp, ?_, fun a ha hn => ?_⟩, h.holds.set hP hx w⟩
  · exact (Function.update_of_ne (hne _ hb.not_isAddress) ..).trans h.mem
  · exact (Function.update_of_ne (hne a hn) ..).trans (h.keeps a ha hn)

end Computes

/-! ## Simulation -/

/-- The variables of a state of the generator are variables of the program. -/
def Known (s : GenState) (G : Slots) : Prop :=
  ∀ x slot, s.globals.lookup x = some slot → G.lookup x = some slot

theorem Known.before {s t : GenState} {ls : List String} (h : Known t G) (he : Emits s t ls) :
    Known s G := fun x slot hx => h x slot (he.kept hx)

/-- Outside of procedures, the address of a variable is a constant. -/
theorem address_known (hP : Program P G) {s t : GenState} {x : String} {c : List Item}
    (h : (address [] x).Gives s c t) (hk : Known t G) :
    ∃ slot, G.lookup x = some slot ∧ c = [.instr (.loadc (.int slot.address))] := by
  obtain ⟨rfl, slot, hs, rfl⟩ := address_gives h
  have hx : G.lookup x = some slot := hk x slot (by simpa using hs)
  exact ⟨slot, hx, by rw [if_pos (hP.global hx)]⟩

def ifCode (i th el en : String) (ce ca cb : List Instr) : List Instr :=
  .label (.text i) :: (ce ++ .jumpz (.text el) :: .label (.text th) :: (ca ++ .jump (.text en) ::
    .label (.text el) :: (cb ++ [.label (.text en)])))

def whileCode (wh en : String) (ce ca : List Instr) : List Instr :=
  .label (.text wh) :: (ce ++ .jumpz (.text en) :: .pop ::
    (ca ++ [.jump (.text wh), .label (.text en)]))

def loopCode (lo en : String) (ca : List Instr) : List Instr :=
  .label (.text lo) :: .dup :: .jumpz (.text en) :: .unary .dec :: .swap :: .pop ::
    (ca ++ [.swap, .jump (.text lo), .label (.text en), .pop])

/-- If the condition is zero, the code of an alternative does what that of its last part does. -/
theorem ifCode_runs_else (hP : Program P G) {i th el en : String} {ce ca cb : List Instr}
    (hp : Placed P m.pc (ifCode i th el en ce ca cb)) (hb : Below G m.sp)
    (hc : ∃ m₁, Runs P m.next m₁ ∧ m₁.pc = m.next.pc + ce.length ∧ Computes G m.next 0 S m₁)
    (hrun : ∀ m₁ : State, Placed P m₁.pc cb → Below G m₁.sp → Holds G S m₁.mem →
      ∃ m₂, Runs P m₁ m₂ ∧ m₂.pc = m₁.pc + cb.length ∧ Computes G m₁ v S₁ m₂) :
    ∃ m', Runs P m m' ∧ m'.pc = m.pc + (ifCode i th el en ce ca cb).length ∧
      Computes G m v S₁ m' := by
  obtain ⟨m₁, r₁, pc₁, c₁⟩ := hc
  rw [ifCode] at hp ⊢
  have hp₁ := hp.tail.behind pc₁
  have hp₂ := hp₁.tail.tail.right.tail
  obtain ⟨m₂, r₂, pc₂, c₂⟩ := hrun (m₁.drop.jumpTo _).next hp₂.tail.left (c₁.below_drop hb) c₁.holds
  refine ⟨_, Runs.label hp (r₁.trans (Runs.jumpz_zero hp₁ c₁.top (target?_eq hP.labels hp₂)
    (Runs.label hp₂ (r₂.trans (Runs.label (hp₂.tail.behind pc₂) (.refl _)))))), ?_, ?_⟩
  · simp [pc₂, pc₁]; omega
  · exact (c₁.of_jumpTo.after c₂.of_jumpTo.of_jumpTo).next

theorem loopCode_runs_start {lo en : String} {ca : List Instr} {k : Nat}
    (hp : Placed P m₁.pc (loopCode lo en ca)) (h : Computes G m v S m₁.drop) (hb : Below G m.sp)
    (ht : m₁.top = (k + 1 : Nat)) :
    ∃ m₂, Runs P m₁ m₂ ∧ m₂.pc = m₁.pc + 6 ∧ Computes G m k S m₂ := by
  rw [loopCode] at hp
  have htop : m₁.mem m₁.sp = k + 1 := ht
  refine ⟨_, Runs.label hp (Runs.dup hp.tail (Runs.jumpz_other hp.tail.tail ?_
    (Runs.unary hp.tail.tail.tail (Runs.swap hp.tail.tail.tail.tail
    (Runs.pop hp.tail.tail.tail.tail.tail (.refl _)))))), rfl, ?_⟩
  · simp [State.top, htop]; omega
  · refine (h.replace hb k).congr hb (by simp) rfl fun a ha => ?_
    have h₀ : a ≤ m₁.sp - 8 := by simpa using ha
    by_cases h₁ : a = m₁.sp - 8
    · have h₂ : m₁.sp ≠ m₁.sp + 8 := by omega
      have h₃ : m₁.sp - 8 ≠ m₁.sp := by omega
      simp [State.top, UnaryOp.apply, htop, h₁, h₂, h₃]
    · simp [h₁, show a ≠ m₁.sp by omega, show a ≠ m₁.sp + 8 by omega]

/-- A round of a counting loop ends with the new result below the counter. -/
theorem loopCode_runs_back {lo : String} {c : List Instr} {k n : Nat}
    (hp : Placed P m₂.pc (.swap :: .jump (.text lo) :: c))
    (hl : target? Instr.name? P (.text lo) = some n)
    (h : Computes G m k S m₁) (h' : Computes G m₁ w S₁ m₂) (hb : Below G m.sp) :
    ∃ m₃, Runs P m₂ m₃ ∧ m₃.pc = n ∧ Computes G m w S₁ m₃.drop ∧ m₃.top = k := by
  have hu := h.under h' hb
  refine ⟨_, Runs.swap hp (Runs.jump hp.tail hl (.refl _)), rfl, ?_, ?_⟩
  · rw [h'.top, hu.top]
    exact (((hu.replace hb w).under (.push (hu.replace hb w).holds
      ((hu.replace hb w).below hb) k) hb).next).jumpTo n
  · rw [hu.top]; simp [State.top]

mutual

/-- **Code for an expression pushes its value**, wherever it stands and whatever the stack is. -/
theorem value_runs (hP : Program P G) : ∀ {S : Store} {e : Expr} {v : Int} {S' : Store},
    Evaluates S e v S' → ∀ {s t : GenState} {c : List Item} {m : State},
    (value [] e).Gives s c t → Known t G → Placed P m.pc (Item.flatList c) → Below G m.sp →
    Holds G S m.mem → ∃ m', Runs P m m' ∧ m'.pc = m.pc + (Item.flatList c).length ∧
      Computes G m v S' m'
  | S, _, _, _, .number (n := n) hn, s, t, c, m, hc, hk, hp, hb, hS => by
    obtain ⟨rfl, rfl⟩ := Gen.gives_pure.1 hc
    exact ⟨(m.push n).next, Runs.step hp.head (by simp [exec, word?, hn]) (.refl _), rfl,
      (Computes.push hS hb n).next⟩
  | S, _, _, _, .unary (v := v) (f := f) ha hf, s, t, c, m, hc, hk, hp, hb, hS => by
    obtain ⟨ca, o, hca, ho, rfl⟩ := value_unary_gives hc
    simp only [flatList_append, flatList_instr, flatList_nil] at hp ⊢
    obtain ⟨m₁, r₁, pc₁, c₁⟩ := value_runs hP ha hca hk hp.left hb hS
    refine ⟨_, r₁.trans (Runs.unary (hp.behind pc₁) (.refl _)), ?_, ?_⟩
    · simp [pc₁]; omega
    · rw [c₁.top, unaryOp_apply ho hf]; exact (c₁.replace hb _).next
  | S, _, _, _, .binary (v := v) (w := w) (f := f) ha hb' hf, s, t, c, m, hc, hk, hp, hb, hS => by
    obtain ⟨ca, u, cb, o, hca, hcb, ho, rfl⟩ := value_binary_gives hc
    simp only [flatList_append, flatList_instr, flatList_nil, List.append_assoc] at hp ⊢
    obtain ⟨m₁, r₁, pc₁, c₁⟩ :=
      value_runs hP ha hca (hk.before (value_emits [] _ hcb)) hp.left hb hS
    have hp₁ := hp.behind pc₁
    obtain ⟨m₂, r₂, pc₂, c₂⟩ := value_runs hP hb' hcb hk hp₁.left (c₁.below hb) c₁.holds
    have hu := c₁.under c₂ hb
    have hw : o.apply m₂.drop.top m₂.top = some (f v w) := by
      rw [hu.top, c₂.top, binaryOp_apply ho hf]
    refine ⟨_, r₁.trans (r₂.trans (Runs.binary (hp₁.behind pc₂) hw (.refl _))), ?_,
      (hu.replace hb _).next⟩
    simp [pc₂, pc₁]; omega
  | S, _, _, _, .assign (x := x) (v := v) ha, s, t, c, m, hc, hk, hp, hb, hS => by
    obtain ⟨s', ca, cx, hd, hca, hcx, rfl⟩ := value_assign_gives hc
    obtain ⟨slot, hx, rfl⟩ := address_known hP hcx hk
    simp only [flatList_append, flatList_instr, flatList_nil, List.append_assoc,
      List.singleton_append] at hp ⊢
    obtain ⟨m₁, r₁, pc₁, c₁⟩ := value_runs hP ha hca hk hp.left hb hS
    have hp₁ := hp.behind pc₁
    have c₂ := (Computes.push c₁.holds (c₁.below hb) slot.address).next
    have hu := c₁.under c₂ hb
    refine ⟨_, r₁.trans (Runs.loadc hp₁ (Runs.store hp₁.tail (.refl _))), ?_, ?_⟩
    · simp [pc₁]; omega
    · rw [c₂.top, hu.top]; exact (hu.write hP hb hx v).next
  | S, _, _, _, .var (x := x) (v := v) hv, s, t, c, m, hc, hk, hp, hb, hS => by
    obtain ⟨cx, hcx, rfl⟩ := value_var_gives hc
    obtain ⟨slot, hx, rfl⟩ := address_known hP hcx hk
    have c₁ := (Computes.push hS hb slot.address).next
    refine ⟨_, Runs.loadc hp (Runs.load hp.tail (.refl _)), rfl, ?_⟩
    rw [c₁.top, c₁.holds x slot v hx hv]; exact (c₁.replace hb v).next
  | _, _, _, _, .sequence h, s, t, c, m, hc, hk, hp, hb, hS => by
    rw [value] at hc; exact valueOfLast_runs hP h hc hk hp hb hS
  | _, _, _, _, .ifTrue hc' h0 ha, s, t, c, m, hc, hk, hp, hb, hS => by
    obtain ⟨i, th, el, en, s', ce, u, ca, u', cb, -, hce, hca, hcb, rfl⟩ := value_ifThen_gives hc
    have hk' := hk.before (valueOrZero_emits [] _ hcb)
    simp only [flatList_append, flatList_instr, flatList_nil, List.append_assoc,
      List.cons_append] at hp ⊢
    obtain ⟨m₁, r₁, pc₁, c₁⟩ := value_runs (m := m.next) hP hc' hce
      (hk'.before (value_emits [] _ hca)) hp.tail.left hb hS
    have hp₁ := hp.tail.behind pc₁
    have hp₂ := hp₁.tail.tail
    obtain ⟨m₂, r₂, pc₂, c₂⟩ := value_runs (m := m₁.drop.next.next) hP ha hca hk' hp₂.left
      (c₁.below_drop hb) c₁.holds
    have hp₃ := hp₂.behind pc₂
    have hend := hp₃.tail.tail.right
    refine ⟨_, Runs.label hp (r₁.trans (Runs.jumpz_other hp₁ (c₁.top.trans_ne h0)
      (Runs.label hp₁.tail (r₂.trans (Runs.jump hp₃ (target?_eq hP.labels hend)
      (Runs.label hend (.refl _))))))), ?_, ?_⟩
    · simp [pc₂, pc₁]; omega
    · exact ((c₁.of_jumpTo.after c₂.of_jumpTo.of_jumpTo).jumpTo _).next
  | _, _, _, _, .ifFalse hc' hb', s, t, c, m, hc, hk, hp, hb, hS => by
    obtain ⟨i, th, el, en, s', ce, u, ca, u', cb, -, hce, hca, hcb, rfl⟩ := value_ifThen_gives hc
    have hk' := (hk.before (valueOrZero_emits [] _ hcb)).before (value_emits [] _ hca)
    simp only [flatList_append, flatList_instr, flatList_nil, List.append_assoc,
      List.cons_append] at hp ⊢
    exact ifCode_runs_else hP hp hb (value_runs (m := m.next) hP hc' hce hk' hp.tail.left hb hS)
      fun m₁ => value_runs hP hb' hcb hk
  | _, _, _, _, .ifNothing hc', s, t, c, m, hc, hk, hp, hb, hS => by
    obtain ⟨i, th, el, en, s', ce, u, ca, u', cb, -, hce, hca, hcb, rfl⟩ := value_ifThen_gives hc
    obtain ⟨rfl, rfl⟩ := Gen.gives_pure.1 hcb
    simp only [flatList_append, flatList_instr, flatList_nil, List.append_assoc,
      List.cons_append] at hp ⊢
    exact ifCode_runs_else hP hp hb
      (value_runs (m := m.next) hP hc' hce (hk.before (value_emits [] _ hca)) hp.tail.left hb hS)
      fun m₁ hp₁ hb₁ hS₁ => ⟨_, Runs.loadc hp₁ (.refl _), rfl, (Computes.push hS₁ hb₁ 0).next⟩
  | _, _, _, _, .whileDo h, s, t, c, m, hc, hk, hp, hb, hS => by
    obtain ⟨wh, en, s', ce, u, ca, -, hce, hca, rfl⟩ := value_whileDo_gives hc
    simp only [flatList_append, flatList_instr, flatList_block, flatList_nil,
      List.cons_append] at hp ⊢
    have hp₁ : Placed P (m.push 0).next.pc _ := hp.tail
    obtain ⟨m', r, pc', c'⟩ := whileCode_runs hP h hce hca hk hp₁ hb (Computes.push hS hb 0).next
    exact ⟨m', Runs.loadc hp r, by simp [pc', whileCode]; omega, c'⟩
  | _, _, _, _, .loop (k := k) hn h, s, t, c, m, hc, hk, hp, hb, hS => by
    obtain ⟨lo, en, s', cn, u, ca, -, hcn, hca, rfl⟩ := value_loop_gives hc
    simp only [flatList_append, flatList_instr, flatList_nil, List.append_assoc,
      List.cons_append, List.nil_append] at hp ⊢
    have c₀ := (Computes.push hS hb 0).next
    obtain ⟨m₁, r₁, pc₁, c₁⟩ := value_runs (m := (m.push 0).next) hP hn hcn
      (hk.before (value_emits [] _ hca)) hp.tail.left (c₀.below hb) c₀.holds
    obtain ⟨m', r, pc', c'⟩ := loopCode_runs hP h hca hk (hp.tail.behind pc₁) hb
      (c₀.under c₁ hb) c₁.top
    exact ⟨m', Runs.loadc hp (r₁.trans r), by simp [pc', pc₁, loopCode]; omega, c'⟩

theorem valueOfLast_runs (hP : Program P G) : ∀ {S : Store} {last : Int} {es : List Expr} {v : Int}
    {S' : Store}, EvaluatesAll S last es v S' → ∀ {s t : GenState} {c : List Item} {m : State},
    (valueOfLast [] es).Gives s c t → Known t G → Placed P m.pc (Item.flatList c) →
    Below G m.sp → Holds G S m.mem → ∃ m', Runs P m m' ∧ m'.pc = m.pc + (Item.flatList c).length ∧
      Computes G m v S' m'
  | _, _, [], _, _, .nil, _, _, _, _, hc, _, _, _, _ => absurd hc Gen.gives_throw
  | _, _, [a], _, _, .cons ha .nil, _, _, _, _, hc, hk, hp, hb, hS =>
    value_runs hP ha hc hk hp hb hS
  | _, _, a :: b :: es, _, _, .cons ha h, s, t, c, m, hc, hk, hp, hb, hS => by
    obtain ⟨ca, u, cs, hca, hcs, rfl⟩ := valueOfLast_gives hc
    simp only [flatList_append, flatList_instr] at hp ⊢
    obtain ⟨m₁, r₁, pc₁, c₁⟩ :=
      value_runs hP ha hca (hk.before (valueOfLast_emits [] _ hcs)) hp.left hb hS
    have hp₁ := hp.behind pc₁
    obtain ⟨m₂, r₂, pc₂, c₂⟩ := valueOfLast_runs (m := m₁.drop.next) hP h hcs hk hp₁.tail
      (c₁.below_drop hb) c₁.holds
    refine ⟨m₂, r₁.trans (Runs.pop hp₁ r₂), ?_, c₁.after c₂.of_jumpTo⟩
    simp [pc₂, pc₁]; omega

/-- A while loop at its label, with the result so far on the stack. -/
theorem whileCode_runs (hP : Program P G) : ∀ {S : Store} {last : Int} {e a : Expr} {v : Int}
    {S' : Store}, EvaluatesWhile S last e a v S' → ∀ {s u t : GenState} {ce ca : List Item}
    {wh en : String} {m m₁ : State}, (value [] e).Gives s ce u → (value [] a).Gives u ca t →
    Known t G → Placed P m₁.pc (whileCode wh en (Item.flatList ce) (Item.flatList ca)) →
    Below G m.sp → Computes G m last S m₁ →
    ∃ m', Runs P m₁ m' ∧
      m'.pc = m₁.pc + (whileCode wh en (Item.flatList ce) (Item.flatList ca)).length ∧
      Computes G m v S' m'
  | _, _, _, _, _, _, .stop hc, s, u, t, ce, ca, wh, en, m, m₁, hce, hca, hk, hp, hb, c₁ => by
    have hk' := hk.before (value_emits [] _ hca)
    rw [whileCode] at hp ⊢
    obtain ⟨m₂, r₂, pc₂, c₂⟩ := value_runs (m := m₁.next) hP hc hce hk' hp.tail.left
      (c₁.below hb) c₁.holds
    have hp₂ := hp.tail.behind pc₂
    have hend := hp₂.tail.tail.right.tail
    refine ⟨_, Runs.label hp (r₂.trans (Runs.jumpz_zero hp₂ c₂.top (target?_eq hP.labels hend)
      (Runs.label hend (.refl _)))), ?_, ?_⟩
    · simp [pc₂]; omega
    · exact ((c₁.next.under c₂ hb).jumpTo _).next
  | _, _, _, _, _, _, .go hc h0 ha h, s, u, t, ce, ca, wh, en, m, m₁, hce, hca, hk, hp, hb, c₁ => by
    have hk' := hk.before (value_emits [] _ hca)
    have hp' := hp
    rw [whileCode] at hp
    obtain ⟨m₂, r₂, pc₂, c₂⟩ := value_runs (m := m₁.next) hP hc hce hk' hp.tail.left
      (c₁.below hb) c₁.holds
    have hp₂ := hp.tail.behind pc₂
    have hu := c₁.next.under c₂ hb
    obtain ⟨m₃, r₃, pc₃, c₃⟩ := value_runs (m := m₂.drop.next.drop.next) hP ha hca hk
      hp₂.tail.tail.left (hu.below_drop hb) hu.holds
    have hp₃ := hp₂.tail.tail.behind pc₃
    have hp₄ : Placed P (m₃.jumpTo m₁.pc).pc _ := hp'
    obtain ⟨m₄, r₄, pc₄, c₄⟩ :=
      whileCode_runs hP h hce hca hk hp₄ hb ((hu.next.after c₃.of_jumpTo).jumpTo _)
    exact ⟨m₄, Runs.label hp (r₂.trans (Runs.jumpz_other hp₂ (c₂.top.trans_ne h0)
      (Runs.pop hp₂.tail (r₃.trans (Runs.jump hp₃ (target?_eq hP.labels hp) r₄))))), pc₄, c₄⟩

/-- A counting loop at its label, with the result so far and the counter on the stack. -/
theorem loopCode_runs (hP : Program P G) : ∀ {S : Store} {last : Int} {k : Nat} {a : Expr} {v : Int}
    {S' : Store}, EvaluatesTimes S last k a v S' → ∀ {s t : GenState} {ca : List Item}
    {lo en : String} {m m₁ : State}, (value [] a).Gives s ca t → Known t G →
    Placed P m₁.pc (loopCode lo en (Item.flatList ca)) → Below G m.sp →
    Computes G m last S m₁.drop → m₁.top = k →
    ∃ m', Runs P m₁ m' ∧ m'.pc = m₁.pc + (loopCode lo en (Item.flatList ca)).length ∧
      Computes G m v S' m'
  | _, _, _, _, _, _, .zero, s, t, ca, lo, en, m, m₁, hca, hk, hp, hb, c₁, ht => by
    rw [loopCode] at hp ⊢
    have hend := hp.tail.tail.tail.tail.tail.tail.right.tail.tail
    refine ⟨_, Runs.label hp (Runs.dup hp.tail (Runs.jumpz_zero hp.tail.tail ?_
      (target?_eq hP.labels hend) (Runs.label hend (Runs.pop hend.tail (.refl _))))), ?_, ?_⟩
    · simpa [State.top] using ht
    · simp; omega
    · refine c₁.congr hb (by simp) rfl fun a ha => Function.update_of_ne ?_ ..
      simp at ha ⊢; omega
  | _, _, _, _, _, _, .succ (n := k) ha h, s, t, ca, lo, en, m, m₁, hca, hk, hp, hb, c₁, ht => by
    obtain ⟨m₂, r₂, pc₂, c₂⟩ := loopCode_runs_start hp c₁ hb ht
    have hl := target?_eq hP.labels hp
    have hp₂ : Placed P m₂.pc (Item.flatList ca ++ _) := pc₂ ▸ hp.tail.tail.tail.tail.tail.tail
    obtain ⟨m₃, r₃, pc₃, c₃⟩ := value_runs hP ha hca hk hp₂.left (c₂.below hb) c₂.holds
    obtain ⟨m₄, r₄, pc₄, c₄, ht₄⟩ := loopCode_runs_back (hp₂.behind pc₃) hl c₂ c₃ hb
    obtain ⟨m₅, r₅, pc₅, c₅⟩ := loopCode_runs hP h hca hk (pc₄ ▸ hp) hb c₄ ht₄
    exact ⟨m₅, r₂.trans (r₃.trans (r₄.trans r₅)), pc₄ ▸ pc₅, c₅⟩

end

/-! ## Operand stacks -/

theorem Operands.base_le {mem : Int → Int} {base : Int} :
    ∀ {sp : Int} {s : List Int}, Operands mem base sp s → base ≤ sp
  | _, [], h => Int.le_of_eq h.symm
  | _, _ :: _, ⟨_, h⟩ => by have := h.base_le; omega

theorem Operands.congr {mem mem' : Int → Int} {base : Int} :
    ∀ {sp : Int} {s : List Int}, Operands mem base sp s →
      (∀ a, base < a → a ≤ sp → mem' a = mem a) → Operands mem' base sp s
  | _, [], h, _ => h
  | sp, _ :: _, ⟨hv, h⟩, he => by
    have := h.base_le
    exact ⟨(he sp (by omega) (Int.le_refl _)).trans hv, h.congr fun a h₁ h₂ => he a h₁ (by omega)⟩

theorem Computes.operands {base : Int} {s : List Int} (h : Computes G m v S m₁)
    (hb : Below G base) (hs : Operands m.mem base m.sp s) :
    Operands m₁.mem base m₁.sp (v :: s) := by
  have hsp : m₁.sp - 8 = m.sp := by rw [h.sp]; omega
  refine ⟨h.top, hsp ▸ hs.congr fun a h₁ h₂ => h.keeps a (hsp ▸ h₂) fun ha => ?_⟩
  have := hb a ha
  omega

/-! ## Compiled expressions -/

theorem compileOption_gives {e : Option Expr} {st st' : GenState} {c : Compiled}
    (h : (compile .cma e).Gives st c st') :
    ∃ is, (valueOrZero [] e).Gives { st with globals := [] } is st' ∧
      c = ⟨Item.cells is, st'.globals⟩ := by
  simp only [compile, compileBy, Gen.inScope, codeBy, Gen.gives_bind, Gen.gives_modify,
    Gen.gives_pure, Gen.gives_get] at h
  obtain ⟨_, _, rfl, _, _, ⟨is, _, hv, rfl, rfl⟩, _, _, ⟨rfl, rfl⟩, rfl, rfl⟩ := h
  exact ⟨is, hv, rfl⟩

theorem compile_gives {e : Expr} {st st' : GenState} {c : Compiled}
    (h : (compile .cma (some e)).Gives st c st') :
    ∃ is, (value [] e).Gives { st with globals := [] } is st' ∧
      c = ⟨Item.cells is, st'.globals⟩ := compileOption_gives h

/-- **Compiled code does what the expression says.**  Its blocks opened, it runs from its first
instruction to its end, pushes the value on whatever operand stack there is, and takes the memory
from the store before to the store after.  The variables lie below the operand stack. -/
theorem compile_preserves_meaning {e : Expr} {st st' : GenState} {c : Compiled}
    (hc : (compile .cma (some e)).Gives st c st') :
    ∃ P, instructions? c.code = some P ∧
      ∀ {S S' : Store} {v : Int}, Evaluates S e v S' →
      ∀ {m : State} {base : Int} {s : List Int}, m.pc = 0 → Below c.globals base →
        Operands m.mem base m.sp s → Holds c.globals S m.mem →
        ∃ m', Runs P m m' ∧ m'.pc = P.length ∧ Operands m'.mem base m'.sp (v :: s) ∧
          Holds c.globals S' m'.mem := by
  obtain ⟨is, hv, rfl⟩ := compile_gives hc
  have hem := value_emits [] e hv
  have hlaid : Laid st' := hem.laid ⟨by simp, by simp, by simp⟩
  have hP : Program (Item.flatList is) st'.globals := ⟨hem.nodup, hlaid.global, hlaid.apart⟩
  refine ⟨_, instructions?_cells is, fun he m base s hpc hb hs hS => ?_⟩
  have hbs : Below st'.globals m.sp := hb.mono hs.base_le
  obtain ⟨m', hr, hpc', hm'⟩ :=
    value_runs hP he hv (fun _ _ => id) (hpc ▸ Placed.whole _) hbs hS
  exact ⟨m', hr, by simpa [hpc] using hpc', hm'.operands hb hs, hm'.holds⟩

/-- `{x = 3; loop 2 do x = x * x}`, run on a stack that already holds a word. -/
theorem compile_preserves_meaning_squares :
    let p : Pos := ⟨[], 1, 1⟩
    let x := Expr.var p "x"
    let e := Expr.sequence p [.assign p (.var p "x") (.number p "3"),
      .loop p (.number p "2") (.assign p (.var p "x") (.binary p .times x x))]
    ∃ c st P m', (compile .cma (some e)).Gives .initial c st ∧ instructions? c.code = some P ∧
      Runs P ⟨0, 8, 0, fun _ => 7⟩ m' ∧ m'.pc = P.length ∧ Operands m'.mem 0 m'.sp [81, 7] ∧
      c.globals = [("x", ⟨.global, 0, some 8⟩)] ∧ m'.mem 0 = 81 := by
  intro p x e
  let start : Store := fun _ => none
  have he : Evaluates start e 81 (((start.set "x" 3).set "x" 9).set "x" 81) :=
    .sequence (.cons (.assign (.number rfl)) (.cons (.loop (k := 2) (.number rfl)
      (.succ (.assign (.binary (.var rfl) (.var rfl) rfl))
        (.succ (.assign (.binary (.var rfl) (.var rfl) rfl)) .zero))) .nil))
  have hb : Below [("x", ⟨.global, 0, some 8⟩)] 0 := by
    rintro a ⟨y, slot, hy, rfl⟩
    cases hyx : y == "x" <;> rw [List.lookup_cons, hyx] at hy <;> cases hy
    exact Int.le_refl 0
  have hc : (compile .cma (some e)).Gives .initial _ _ := rfl
  obtain ⟨P, hP, run⟩ := compile_preserves_meaning hc
  obtain ⟨m', hr, hpc, hs, hm⟩ := run he (m := ⟨0, 8, 0, fun _ => 7⟩) (s := [7]) rfl hb
    ⟨rfl, rfl⟩ (fun _ _ _ _ h => by cases h)
  exact ⟨_, _, P, m', rfl, hP, hr, hpc, hs, rfl, hm "x" _ 81 rfl rfl⟩

end ExprLang.CMa
