/-
  Calls of procedures on the CMa.

  A call pushes the arguments, the last one first, and the frame pointer; the callee's address is
  replaced by the address to return to, and there the frame of the procedure begins.  The procedure
  leaves its value two words below its frame and takes the frame down; the call then moves the value
  to where the arguments began.

  * `Yields` and `YieldAll` say what the code of parts does, `InFrame` which words belong to the
    variables of a procedure;
  * `proc_returns`: the code of a procedure brings its value back to the caller;
  * `call_keeps_frame`: after a call there is one word more on the stack, and the frame pointer and
    the words below are as before, for words of any size that can hold the addresses.  A procedure
    without parameters is the exception: no argument makes room for its value, which is written over
    the topmost word of the caller.
-/
import Mathlib
import ExprLang.Proofs.CMaCode

namespace ExprLang.CMa

variable {M : Nat} {P : List Instr} {A : Int → Prop} {m m₁ m₂ m₃ : State} {v : Int}

/-! ## Frames -/

/-- The word at `a` belongs to a variable of the frame at `fp`. -/
def InFrame (frame : Slots) (fp a : Int) : Prop :=
  ∃ x slot, frame.lookup x = some slot ∧ a = fp + slot.address

theorem lookup_paramSlots {x : String} {slot : Slot} : ∀ {xs : List String} {a : Int}
    {slots : Slots}, (paramSlots a xs slots).lookup x = some slot →
    slots.lookup x = some slot ∨ slot.address ≤ a ∧ a - 8 * xs.length < slot.address
  | [], _, _, h => .inl h
  | y :: ys, a, slots, h => by
    rw [paramSlots] at h
    rcases lookup_paramSlots h with h | ⟨h₁, h₂⟩
    · rw [Slots.lookup_put] at h
      split at h
      · cases h
        exact .inr ⟨Int.le_refl a, by rw [List.length_cons]; dsimp only; omega⟩
      · exact .inl h
    · exact .inr ⟨by omega, by rw [List.length_cons]; omega⟩

theorem lookup_localSlots {x : String} {slot : Slot} : ∀ {xs : List String} {a : Int}
    {slots : Slots}, (localSlots a xs slots).lookup x = some slot →
    slots.lookup x = some slot ∨ a ≤ slot.address
  | [], _, _, h => .inl h
  | y :: ys, a, slots, h => by
    rw [localSlots] at h
    rcases lookup_localSlots h with h | h
    · rw [Slots.lookup_put] at h
      split at h
      · cases h
        exact .inr (Int.le_refl a)
      · exact .inl h
    · exact .inr (by omega)

/-- The variables of a procedure lie above its frame, or below the two words that the call has put
under it and not deeper than the arguments. -/
theorem InFrame.cases {params locals : List String} {fp a : Int}
    (h : InFrame (procFrame params locals) fp a) :
    fp < a ∨ a ≤ fp - 16 ∧ fp - 16 - 8 * params.length < a := by
  obtain ⟨x, slot, hx, rfl⟩ := h
  rcases lookup_localSlots hx with hx | hx
  · rcases lookup_paramSlots hx with hx | ⟨h₁, h₂⟩
    · cases hx
    · exact .inr ⟨by omega, by omega⟩
  · exact .inl (by omega)

/-! ## Parts -/

/-- Code of `e` that goes on from `m` comes to `m'` and pushes `v`; below, it changes words of `A`
only. -/
def Yields (M : Nat) (P : List Instr) (frame : Slots) (A : Int → Prop) (e : Expr) (m : State)
    (v : Int) (m' : State) : Prop :=
  ∀ ⦃s t : GenState⦄ ⦃c : List Item⦄, (value frame e).Gives s c t →
    Placed P m.pc (Item.flatList c) →
    RunsIn M P m m' ∧ m'.pc = m.pc + (Item.flatList c).length ∧ Pushes A m v m'

/-- Code of some arguments pushes their values, that of the last one first. -/
inductive YieldAll (M : Nat) (P : List Instr) (frame : Slots) (A : Int → Prop) :
    List Expr → State → List Int → State → Prop
  | nil (m : State) : YieldAll M P frame A [] m [] m
  | cons {e : Expr} {es : List Expr} {m m₁ m₂ : State} {w : Int} {ws : List Int}
      (hes : YieldAll M P frame A es m ws m₁) (he : Yields M P frame A e m₁ w m₂) :
      YieldAll M P frame A (e :: es) m (w :: ws) m₂

/-- Code of arguments pushes one word for each of them. -/
theorem YieldAll.runs {frame : Slots} : ∀ {es : List Expr} {ws : List Int} {m m₁ : State}
    {s t : GenState} {c : List Item}, YieldAll M P frame A es m ws m₁ →
    (valuesReversed frame es).Gives s c t → Placed P m.pc (Item.flatList c) →
    RunsIn M P m m₁ ∧ m₁.pc = m.pc + (Item.flatList c).length ∧ m₁.sp = m.sp + 8 * es.length ∧
      m₁.fp = m.fp ∧ ∀ a ≤ m.sp, ¬ A a → m₁.mem a = m.mem a
  | [], _, _, _, _, _, _, .nil m, hc, _ => by
    obtain ⟨rfl, -⟩ := Gen.gives_pure.1 hc
    exact ⟨.refl m, rfl, by simp, rfl, fun _ _ _ => rfl⟩
  | e :: es, _, m, _, _, _, _, .cons hes he, hc, hp => by
    obtain ⟨cs, u, ca, hcs, hca, rfl⟩ := valuesReversed_gives hc
    rw [flatList_append] at hp ⊢
    obtain ⟨r₁, pc₁, sp₁, fp₁, keeps₁⟩ := hes.runs hcs hp.left
    obtain ⟨r₂, pc₂, h₂⟩ := he hca (hp.behind pc₁)
    refine ⟨r₁.trans r₂, ?_, ?_, h₂.fp.trans fp₁, fun a ha hA => ?_⟩
    · simp [pc₂, pc₁]; omega
    · rw [h₂.sp, sp₁, List.length_cons]; omega
    · exact (h₂.keeps a (by rw [sp₁]; omega) hA).trans (keeps₁ a ha hA)

/-! ## Procedures -/

/-- The state in which the body of a procedure starts, from that at its label: the frame begins at
the topmost word, and above it there is room for the locals. -/
def State.enterProc (m : State) (params locals : List String) : State :=
  { m with pc := m.pc + 3, fp := m.sp, sp := m.sp + localBytes (procFrame params locals) }

/-- **The code of a procedure brings its value back.**  It returns to where it was called from with
the frame pointer from under its frame, and its value is the word below that. -/
theorem proc_returns {frame : Slots} {p : Pos} {params locals : List String} {body : Expr}
    {s t : GenState} {c : List Item} {n r : Nat}
    (hc : (value frame (.proc p params locals body)).Gives s c t)
    (hp : Placed P n (Item.flatList c)) (hpc : m.pc = n + 1) (hret : m.top = r)
    (hfits : Fits M m) (hslot : IsWord M (m.sp - 16)) (hfp : ¬ A m.sp) (hfp' : ¬ A (m.sp - 8))
    (hbody : Yields M P (procFrame params locals) A body (m.enterProc params locals) v m₁) :
    ∃ m', RunsIn M P m m' ∧ m'.pc = r ∧ m'.sp = m.sp - 8 ∧ m'.fp = m.mem (m.sp - 8) ∧
      m'.mem (m.sp - 16) = v ∧ ∀ a ≤ m.sp, a ≠ m.sp - 16 → ¬ A a → m'.mem a = m.mem a := by
  obtain ⟨pr, en, s', cb, -, hcb, rfl⟩ := value_proc_gives hc
  simp only [flatList_append, flatList_instr, flatList_nil, List.cons_append,
    List.nil_append] at hp
  have hp₀ : Placed P m.pc _ := hpc ▸ hp.tail
  obtain ⟨r₁, pc₁, h₁⟩ := hbody hcb hp₀.tail.tail.tail.left
  have hp₁ := hp₀.tail.tail.tail.behind pc₁
  have hsp : m.sp < m₁.sp := by
    rw [h₁.sp]
    show m.sp < m.sp + (localBytes (procFrame params locals) : Int) + 8
    omega
  let m₂ := (m₁.push (m₁.fp + -16)).next
  let m₃ := (m₂.drop.write m₂.top m₂.drop.top).next.drop.next
  have h₂ : Pushes (fun _ => False) m₁ (m₁.fp + -16) m₂ := (Pushes.push _ m₁ _).next
  have haddress : m₁.fp + -16 = m.sp - 16 := congrArg (· + -16) h₁.fp
  have htop : m₂.top = m.sp - 16 := h₂.top.trans haddress
  have hval : m₂.drop.top = v := by
    have hsp₂ : m₂.drop.sp = m₁.sp := by simp [h₂.sp]
    rw [State.top, hsp₂, ← h₁.top]
    exact h₂.keeps m₁.sp (Int.le_refl _) id
  have hmem : m₃.mem = Function.update m₂.mem (m.sp - 16) v := by
    simp only [m₃, State.next_mem, State.drop_mem, State.write_mem, htop, hval]
  have hkeeps : ∀ a ≤ m.sp, a ≠ m.sp - 16 → ¬ A a → m₃.mem a = m.mem a := by
    intro a ha hne hA
    rw [hmem, Function.update_of_ne hne, h₂.keeps a (by omega) id]
    exact h₁.keeps a (by show a ≤ m.sp + (localBytes _ : Int); omega) hA
  have hfp₃ : m₃.fp = m.sp := h₁.fp
  have hback : m₃.mem m₃.fp = r := by
    rw [hfp₃, hkeeps _ (Int.le_refl _) (by omega) hfp, ← hret]; rfl
  have hexec : exec P m₃ .ret =
      some ({ m₃ with sp := m₃.fp - 8, fp := m₃.mem (m₃.fp - 8) }.jumpTo r) := by
    rw [exec, hback]; rfl
  have f₁ : Fits M m₁ := Fits.run r₁ hfits
  have f₂ : Fits M m₂ := (f₁.push (haddress ▸ hslot)).next
  have f₃ : Fits M m₃ := (f₂.drop.write _ f₂.drop.top).next.drop.next
  refine ⟨_, RunsIn.step hp₀ rfl hfits.next (RunsIn.step hp₀.tail rfl hfits
    (RunsIn.step hp₀.tail.tail rfl hfits (r₁.trans (RunsIn.step hp₁ rfl f₂
    (RunsIn.step hp₁.tail rfl f₃ (RunsIn.step hp₁.tail.tail rfl f₃
    (RunsIn.step hp₁.tail.tail.tail hexec f₃ (.refl _)))))))), rfl, ?_, ?_, ?_, hkeeps⟩
  · show m₃.fp - 8 = _
    rw [hfp₃]
  · show m₃.mem (m₃.fp - 8) = _
    rw [hfp₃, hkeeps _ (by omega) (by omega) hfp']
  · show m₃.mem _ = _
    rw [hmem, Function.update_self]

/-! ## Calls -/

/-- The state in which a callee at `n` starts: the address to return to is on top. -/
def State.callAt (m : State) (n : Nat) : State := (m.drop.push (m.pc + 1)).jumpTo n

theorem State.callAt_sp (m : State) (n : Nat) : (m.callAt n).sp = m.sp := by simp [callAt]

theorem State.callAt_top (m : State) (n : Nat) : (m.callAt n).top = (m.pc + 1 : Nat) := by
  rw [top, callAt_sp]
  simp [callAt]

theorem State.callAt_mem (m : State) (n : Nat) {a : Int} (ha : a ≠ m.sp) :
    (m.callAt n).mem a = m.mem a :=
  Function.update_of_ne (by simpa using ha) _ _

/-- Before the callee starts, the arguments, the frame pointer and the callee's address have been
pushed. -/
theorem call_enters {frame : Slots} {f : Expr} {args : List Expr} {s t u : GenState}
    {cas cf : List Item} {d : List Instr} {ws : List Int} {w : Int}
    (hcas : (valuesReversed frame args).Gives s cas u) (hcf : (value frame f).Gives u cf t)
    (hp : Placed P m.pc (Item.flatList cas ++ .mark :: (Item.flatList cf ++ d)))
    (hA : ∀ a, A a → a ≤ m.sp) (hfits : Fits M m) (hfp : IsWord M m.fp)
    (hargs : YieldAll M P frame A args m ws m₁)
    (hf : Yields M P frame A f (m₁.push m₁.fp).next w m₂) :
    RunsIn M P m m₂ ∧ m₂.pc = m.pc + (Item.flatList cas).length + 1 + (Item.flatList cf).length ∧
      m₂.sp = m.sp + 8 * args.length + 16 ∧ m₂.top = w ∧ m₂.mem (m₂.sp - 8) = m.fp ∧
      ∀ a ≤ m.sp, ¬ A a → m₂.mem a = m.mem a := by
  obtain ⟨r₁, pc₁, sp₁, fp₁, keeps₁⟩ := hargs.runs hcas hp.left
  have hp₁ := hp.behind pc₁
  have hmark : Pushes A m₁ m₁.fp (m₁.push m₁.fp).next := (Pushes.push A m₁ m₁.fp).next
  obtain ⟨r₂, pc₂, h₂⟩ := hf hcf hp₁.tail.left
  have hsp : m₂.sp - 8 = m₁.sp + 8 := by rw [h₂.sp, hmark.sp]; omega
  have fits₁ : Fits M (m₁.push m₁.fp).next := ((Fits.run r₁ hfits).push (fp₁ ▸ hfp)).next
  refine ⟨r₁.trans (RunsIn.step hp₁ rfl fits₁ r₂), ?_, ?_, h₂.top, ?_, fun a ha hn => ?_⟩
  · rw [pc₂, State.next_pc, State.push_pc, pc₁]
  · rw [h₂.sp, hmark.sp, sp₁]; omega
  · have hn : ¬ A (m₁.sp + 8) := fun h => by have := hA _ h; omega
    rw [hsp, h₂.keeps _ (by have := hmark.sp; omega) hn, hmark.mem, fp₁]
  · rw [h₂.keeps a (by have := hmark.sp; omega) hn, hmark.keeps a (by omega) hn, keeps₁ a ha hn]

/-- **A call gives the caller's frame back.**  Say that all words are numbers modulo `M`, and that
the addresses that the call writes are such: the frame pointer, the place to return to, and that of
the value.  When the code of the arguments, of the callee and of the body each push one word and
change below only words of `A` (and, in the body, variables of the procedure), then the call pushes
one word, the value of the body; the frame pointer is as before, and so are all words of the stack
that are not in `A`.  Without parameters that fails for the topmost word, and only for it: it is the
value of the body then. -/
theorem call_keeps_frame {frame frame' : Slots} {p q : Pos} {params locals : List String}
    {f body : Expr} {args : List Expr} {s s' t t' : GenState} {c c' : List Item} {n : Nat}
    (hproc : (value frame' (.proc q params locals body)).Gives s' c' t')
    (hplaced : Placed P n (Item.flatList c'))
    (hcall : (value frame (.call p f args)).Gives s c t)
    (hplaced' : Placed P m.pc (Item.flatList c)) (hlen : args.length = params.length)
    (hA : ∀ a, A a → a ≤ m.sp) (hfits : Fits M m) (hfp : IsWord M m.fp)
    {ws : List Int} (hargs : YieldAll M P frame A args m ws m₁)
    (hf : Yields M P frame A f (m₁.push m₁.fp).next ((n + 1 : Nat) : Int) m₂)
    (hback : IsWord M (m₂.pc + 1)) (hslot : IsWord M (m₂.sp - 16))
    (hbody : Yields M P (procFrame params locals)
      (fun a => A a ∨ InFrame (procFrame params locals) m₂.sp a) body
      ((m₂.callAt (n + 1)).enterProc params locals) v m₃) :
    ∃ m', RunsIn M P m m' ∧ m'.pc = m.pc + (Item.flatList c).length ∧
      Pushes (fun a => A a ∨ params = [] ∧ a = m.sp) m v m' ∧
      (params = [] → m'.mem m.sp = v) := by
  obtain ⟨cas, u, cf, hcas, hcf, rfl⟩ := value_call_gives hcall
  simp only [flatList_append, flatList_instr, flatList_nil, List.append_assoc,
    List.cons_append] at hplaced' ⊢
  obtain ⟨r₂, pc₂, sp₂, top₂, fp₂, keeps₂⟩ := call_enters hcas hcf hplaced' hA hfits hfp hargs hf
  rw [hlen] at sp₂
  have hp₂ : Placed P m₂.pc _ := (hplaced'.right.tail.behind (by rw [pc₂]))
  -- The words of the frame's variables keep clear of the return address and the frame pointer.
  let A' : Int → Prop := fun a => A a ∨ InFrame (procFrame params locals) m₂.sp a
  have hA' : ∀ a, A' a → a ≤ m₂.sp - 16 ∨ m₂.sp < a := by
    rintro a (ha | ha)
    · have := hA a ha
      omega
    · rcases ha.cases with h | ⟨h, -⟩
      · exact .inr h
      · exact .inl h
  have hret : ¬ A' (m₂.callAt (n + 1)).sp := fun h => by
    have := hA' _ h; rw [State.callAt_sp] at this; omega
  have hframe : ¬ A' ((m₂.callAt (n + 1)).sp - 8) := fun h => by
    have := hA' _ h; rw [State.callAt_sp] at this; omega
  have fits₂ : Fits M m₂ := Fits.run r₂ hfits
  have fits₃ : Fits M (m₂.callAt (n + 1)) := (fits₂.drop.push hback).jumpTo _
  obtain ⟨m₄, r₄, pc₄, sp₄, fp₄, val₄, keeps₄⟩ := proc_returns hproc hplaced rfl
    (State.callAt_top m₂ _) fits₃ (by rwa [State.callAt_sp]) hret hframe hbody
  rw [State.callAt_sp] at sp₄ fp₄ val₄ keeps₄
  have hp₄ : Placed P m₄.pc _ := pc₄ ▸ hp₂.tail
  -- The value is moved down over the arguments.
  have htop : m₄.drop.next.top = v := by
    show m₄.mem (m₄.sp - 8) = v
    rw [sp₄, show m₂.sp - 8 - 8 = m₂.sp - 16 by omega, val₄]
  let m₅ := { m₄.drop.next.drop with sp := m₄.drop.next.drop.sp - (8 * (args.length : Int) - 8) }
  have hsp₅ : m₅.sp = m.sp := by
    show m₄.sp - 8 - 8 - _ = _
    rw [sp₄, sp₂, hlen]
    omega
  have h₅ : Pushes (fun _ => False) m₅ v (m₅.push v).next := (Pushes.push _ m₅ v).next
  have hcallee : exec P m₂ .call = some (m₂.callAt (n + 1)) := by
    rw [exec, top₂]; rfl
  have hslide : exec P m₄.drop.next (.slide (.int (8 * args.length - 8))) =
      some (m₅.push v).next := by
    rw [← htop]; rfl
  have fits₄ : Fits M m₄ := Fits.run r₄ fits₃
  have hfits₅ : Fits M m₅ := fits₄
  have fits₅ : Fits M (m₅.push v).next := by
    rw [← htop]
    exact (hfits₅.push (Fits.top fits₄.drop.next)).next
  refine ⟨(m₅.push v).next, r₂.trans (RunsIn.step hp₂ hcallee fits₃ (r₄.trans
    (RunsIn.step hp₄ rfl fits₄.drop.next (RunsIn.step hp₄.tail hslide fits₅ (.refl _))))), ?_,
    ⟨?_, ?_, ?_, ?_⟩, ?_⟩
  · show m₄.pc + 1 + 1 = _
    simp [pc₄, pc₂]; omega
  · rw [h₅.sp, hsp₅]
  · rw [h₅.fp]
    show m₄.fp = m.fp
    rw [fp₄, State.callAt_mem _ _ (by omega), fp₂]
  · rw [← hsp₅]; exact h₅.mem
  · intro a ha hn
    have hnA : ¬ A a := fun h => hn (.inl h)
    have hne : a ≠ m₂.sp - 16 := fun h => by
      cases params with
      | nil => exact hn (.inr ⟨rfl, by simp at sp₂; omega⟩)
      | cons x xs => rw [List.length_cons] at sp₂; omega
    have hnA' : ¬ A' a := by
      rintro (h | h)
      · exact hnA h
      · rcases h.cases with h | ⟨-, h⟩ <;> omega
    rw [h₅.keeps a (by omega) id]
    show m₄.mem a = m.mem a
    rw [keeps₄ a (by omega) hne hnA', State.callAt_mem _ _ (by omega), keeps₂ a ha hnA]
  · intro hnil
    rw [h₅.keeps m.sp (by omega) id, show m.sp = m₂.sp - 16 by simp [hnil] at sp₂; omega]
    exact val₄

/-- `1 + (proc () -> 2)()`, with words of 64 bits: when the call has run, both operands are the
value of the procedure, so that the sum is not three. -/
theorem call_keeps_frame_zero :
    let p : Pos := ⟨[], 1, 1⟩
    let e := Expr.binary p .plus (.number p "1") (.call p (.proc p [] [] (.number p "2")) [])
    ∃ c t m₁ m₂ m₃, (value [] e).Gives ⟨.empty, 0, []⟩ c t ∧
      RunsIn (2 ^ 64) (Item.flatList c) ⟨0, 0, 0, fun _ => 0⟩ m₁ ∧
      m₁.pc = 1 ∧ m₁.sp = 8 ∧ m₁.mem 8 = 1 ∧ RunsIn (2 ^ 64) (Item.flatList c) m₁ m₂ ∧
      m₂.pc = 16 ∧ m₂.sp = 16 ∧ m₂.mem 16 = 2 ∧ m₂.mem 8 = 2 ∧
      RunsIn (2 ^ 64) (Item.flatList c) m₂ m₃ ∧ m₃.pc = (Item.flatList c).length ∧ m₃.sp = 8 ∧
      m₃.top = 4 := by
  intro p e
  let f := Expr.proc p [] [] (.number p "2")
  let P : List Instr := [.loadc (.text "1"), .mark, .jump (.text "endproc0"),
    .label (.text "proc0"), .enter, .alloc (.int 0), .loadc (.text "2"), .loadrc (.int (-16)),
    .store, .pop, .ret, .label (.text "endproc0"), .loadc (.text "proc0"), .call, .pop,
    .slide (.int (-8)), .binary .add]
  let m₁ : State := (State.mk 0 0 0 fun _ => 0).push 1 |>.next
  let m₂ := ((m₁.push m₁.fp).next.push (2 + 1 : Nat)).jumpTo 13
  let m₃ := (((m₂.callAt (2 + 1)).enterProc [] []).push 2).next
  have hstart : Fits (2 ^ 64) ⟨0, 0, 0, fun _ => 0⟩ := fun _ => Int.zero_bmod
  have hone : IsWord (2 ^ 64) 1 := by decide
  have htwo : IsWord (2 ^ 64) 2 := by decide
  have hthree : IsWord (2 ^ 64) (2 + 1 : Nat) := by decide
  have hfour : IsWord (2 ^ 64) 4 := by decide
  have hfourteen : IsWord (2 ^ 64) ((13 : Nat) + 1) := by decide
  have height : IsWord (2 ^ 64) 8 := by decide
  have fits₁ : Fits (2 ^ 64) m₁ := (hstart.push hone).next
  have hmark : Fits (2 ^ 64) (m₁.push m₁.fp).next := (fits₁.push Int.zero_bmod).next
  have fits₂ : Fits (2 ^ 64) m₂ := (hmark.push hthree).jumpTo 13
  have fits₃ : Fits (2 ^ 64) (m₂.callAt (2 + 1)) := (fits₂.drop.push hfourteen).jumpTo _
  have hentered : Fits (2 ^ 64) ((m₂.callAt (2 + 1)).enterProc [] []) := fits₃
  have hc : (value [] e).Gives ⟨.empty, 0, []⟩ (P.map .instr) _ := rfl
  have hproc : (value [] f).Gives ⟨.empty, 0, []⟩ (((P.drop 2).take 11).map .instr) _ := rfl
  have hcall : (value [] (.call p f [])).Gives ⟨.empty, 0, []⟩
      (((P.drop 1).take 15).map .instr) _ := rfl
  have hplaced : Placed P 2 (Item.flatList (((P.drop 2).take 11).map .instr)) :=
    ⟨P.take 2, P.drop 13, rfl, rfl⟩
  have hplaced' : Placed P m₁.pc (Item.flatList (((P.drop 1).take 15).map .instr)) :=
    ⟨P.take 1, P.drop 16, rfl, rfl⟩
  have hbody : Yields (2 ^ 64) P (procFrame [] [])
      (fun a => False ∨ InFrame (procFrame [] []) m₂.sp a)
      (.number p "2") ((m₂.callAt (2 + 1)).enterProc [] []) 2 m₃ := by
    intro s t c hc hp
    obtain ⟨rfl, rfl⟩ := Gen.gives_pure.1 hc
    exact ⟨RunsIn.step hp rfl (hentered.push htwo).next (.refl _), rfl, (Pushes.push _ _ _).next⟩
  have hf : Yields (2 ^ 64) P [] (fun _ => False) f (m₁.push m₁.fp).next ((2 + 1 : Nat) : Int)
      m₂ := by
    intro s t c hc hp
    obtain ⟨pr, en, s', cb, -, hcb, rfl⟩ := value_proc_gives hc
    obtain ⟨rfl, rfl⟩ := Gen.gives_pure.1 hcb
    cases (show P[2]? = some (.jump (.text en)) from hp.head)
    cases (show P[3]? = some (.label (.text pr)) from hp.tail.head)
    have hend : Placed P 11 [.label (.text "endproc0"), .loadc (.text "proc0")] :=
      ⟨P.take 11, P.drop 13, rfl, rfl⟩
    have hr : RunsIn (2 ^ 64) P ((m₁.push m₁.fp).next.jumpTo 11).next m₂ :=
      RunsIn.step hend.tail rfl fits₂ (.refl _)
    exact ⟨RunsIn.step hp rfl (hmark.jumpTo 11) (RunsIn.step hend rfl (hmark.jumpTo 11).next hr),
      rfl, (Pushes.push _ _ _).jumpTo 13⟩
  obtain ⟨m', r, pc, h, htop⟩ := call_keeps_frame hproc hplaced hcall hplaced' rfl nofun fits₁
    Int.zero_bmod (.nil m₁) hf hfourteen height hbody
  have hadd : Placed P m'.pc [.binary .add] := pc ▸ ⟨P.take 16, [], rfl, rfl⟩
  have hsum : exec P m' (.binary .add) = some (m'.drop.drop.push 4).next := by
    have hother : m'.drop.top = 2 := by
      rw [State.top, State.drop_sp, h.sp]
      exact htop rfl
    rw [exec, h.top, hother]
    rfl
  have hend : Fits (2 ^ 64) (m'.drop.drop.push 4).next :=
    ((Fits.run r fits₁).drop.drop.push hfour).next
  refine ⟨_, _, m₁, m', (m'.drop.drop.push 4).next, hc, ?_, rfl, rfl, rfl, r, pc, h.sp, h.mem,
    htop rfl, RunsIn.step hadd hsum hend (.refl _), ?_, ?_, ?_⟩
  · exact RunsIn.step (Placed.whole P) rfl fits₁ (.refl _)
  · exact congrArg (· + 1) pc
  · simp [h.sp]; rfl
  · simp [State.top]

end ExprLang.CMa
