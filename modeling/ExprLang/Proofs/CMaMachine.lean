/-
  The CMa at work.

  The memory holds a word at every address, and the stack is part of it: it grows upwards, and `sp`
  is the address of its top word.  An address counts bytes from the place where the stack starts,
  upwards, so that the text of an instruction finds the word at `a` under `[rbx - a]`.  The address
  of an instruction is its position in the program.

  * `exec` does what the text of one instruction does, and `step` the instruction at `pc`, with
    words that have no bounds;
  * `stepIn M` is a step with words that are numbers modulo `M`, read with their sign: `2 ^ 64` for
    words of 64 bits, and 0 for words without bounds;
  * `instructions?` reads intermediate code, its blocks opened.
-/
import ExprLang.CMa.Generate
import ExprLang.Proofs.Placement
import ExprLang.Proofs.Words
import Mathlib.Logic.Function.Basic

namespace ExprLang.CMa

/-! ## States -/

/-- The registers and the memory. -/
structure State where
  pc : Nat
  sp : Int
  fp : Int
  mem : Int → Int

namespace State

/-- The topmost word. -/
def top (m : State) : Int := m.mem m.sp

/-- One word less on the stack. -/
@[simps -fullyApplied] def drop (m : State) : State := { m with sp := m.sp - 8 }

/-- One word more on the stack. -/
@[simps -fullyApplied] def push (m : State) (w : Int) : State :=
  { m with sp := m.sp + 8, mem := Function.update m.mem (m.sp + 8) w }

/-- The word at `a` replaced. -/
@[simps -fullyApplied] def write (m : State) (a w : Int) : State :=
  { m with mem := Function.update m.mem a w }

@[simps -fullyApplied] def next (m : State) : State := { m with pc := m.pc + 1 }

@[simps -fullyApplied] def jumpTo (m : State) (n : Nat) : State := { m with pc := n }

end State

/-! ## Instructions -/

def Instr.name? : Instr → Option String
  | .label (.text l) => some l
  | _ => none

def exec (P : List Instr) (m : State) : Instr → Option State
  | .loadc v => (word? Instr.name? P v).map fun w => (m.push w).next
  | .loadrc v => (word? Instr.name? P v).map fun k => (m.push (m.fp + k)).next
  | .load => some (m.drop.push (m.mem m.top)).next
  | .store => some (m.drop.write m.top m.drop.top).next
  | .pop => some m.drop.next
  | .dup => some (m.push m.top).next
  | .swap => some ((m.drop.drop.push m.top).push m.drop.top).next
  | .unary op => some (m.drop.push (op.apply m.top)).next
  | .binary op => (op.apply m.drop.top m.top).map fun w => (m.drop.drop.push w).next
  | .label _ => some m.next
  | .jump l => (target? Instr.name? P l).map m.jumpTo
  | .jumpz l => if m.top = 0 then (target? Instr.name? P l).map m.drop.jumpTo else some m.drop.next
  | .enter => some { m with fp := m.sp }.next
  | .alloc n => (word? Instr.name? P n).map fun k => { m with sp := m.sp + k }.next
  | .ret => (m.mem m.fp).toNat?.map { m with sp := m.fp - 8, fp := m.mem (m.fp - 8) }.jumpTo
  | .mark => some (m.push m.fp).next
  | .call => m.top.toNat?.map (m.drop.push (m.pc + 1)).jumpTo
  | .slide n =>
    (word? Instr.name? P n).map fun k => ({ m.drop with sp := m.drop.sp - k }.push m.top).next

def step (P : List Instr) (m : State) : Option State := P[m.pc]?.bind (exec P m)

example : ((step [.loadc (.int 7)] ⟨0, 0, 0, fun _ => 0⟩).map fun m => (m.pc, m.sp, m.top)) =
    some (1, 8, 7) := by decide

abbrev Runs (P : List Instr) : State → State → Prop := Reaches (step P)

theorem Runs.step {P : List Instr} {m m' m'' : State} {i : Instr} (h : P[m.pc]? = some i)
    (hi : exec P m i = some m') (hr : Runs P m' m'') : Runs P m m'' :=
  Reaches.head (by rw [CMa.step, h]; exact hi) hr

theorem target?_eq {P c : List Instr} {n : Nat} {l : String}
    (hP : (labelsOf Instr.name? P).Nodup) (h : Placed P n (.label (.text l) :: c)) :
    target? Instr.name? P (.text l) = some n :=
  position?_eq (show Instr.name? (.label (.text l)) = some l from rfl) hP h.head

/-! ## Runs, instruction by instruction -/

namespace Runs

variable {P c : List Instr} {m m' : State} {l : String}

theorem loadc {a : Int} (h : Placed P m.pc (.loadc (.int a) :: c))
    (hr : Runs P (m.push a).next m') : Runs P m m' := .step h.head rfl hr

theorem load (h : Placed P m.pc (.load :: c))
    (hr : Runs P (m.drop.push (m.mem m.top)).next m') : Runs P m m' := .step h.head rfl hr

theorem store (h : Placed P m.pc (.store :: c))
    (hr : Runs P (m.drop.write m.top m.drop.top).next m') : Runs P m m' := .step h.head rfl hr

theorem pop (h : Placed P m.pc (.pop :: c)) (hr : Runs P m.drop.next m') : Runs P m m' :=
  .step h.head rfl hr

theorem dup (h : Placed P m.pc (.dup :: c)) (hr : Runs P (m.push m.top).next m') : Runs P m m' :=
  .step h.head rfl hr

theorem swap (h : Placed P m.pc (.swap :: c))
    (hr : Runs P ((m.drop.drop.push m.top).push m.drop.top).next m') : Runs P m m' :=
  .step h.head rfl hr

theorem unary {o : UnaryOp} (h : Placed P m.pc (.unary o :: c))
    (hr : Runs P (m.drop.push (o.apply m.top)).next m') : Runs P m m' := .step h.head rfl hr

theorem binary {o : BinaryOp} {w : Int} (h : Placed P m.pc (.binary o :: c))
    (hw : o.apply m.drop.top m.top = some w) (hr : Runs P (m.drop.drop.push w).next m') :
    Runs P m m' := .step h.head (by rw [exec, hw]; rfl) hr

theorem label {v : Cell} (h : Placed P m.pc (.label v :: c)) (hr : Runs P m.next m') :
    Runs P m m' := .step h.head rfl hr

theorem jump {n : Nat} (h : Placed P m.pc (.jump (.text l) :: c))
    (hl : target? Instr.name? P (.text l) = some n) (hr : Runs P (m.jumpTo n) m') : Runs P m m' :=
  .step h.head (by rw [exec, hl]; rfl) hr

theorem jumpz_zero {n : Nat} (h : Placed P m.pc (.jumpz (.text l) :: c)) (h0 : m.top = 0)
    (hl : target? Instr.name? P (.text l) = some n) (hr : Runs P (m.drop.jumpTo n) m') :
    Runs P m m' :=
  .step h.head (by rw [exec, if_pos h0, hl]; rfl) hr

theorem jumpz_other (h : Placed P m.pc (.jumpz (.text l) :: c)) (h0 : m.top ≠ 0)
    (hr : Runs P m.drop.next m') : Runs P m m' :=
  .step h.head (by rw [exec, if_neg h0]) hr

end Runs

/-! ## Words -/

section
variable {M : Nat} {P c : List Instr} {m m₁ m₂ m' : State}

abbrev IsWord (M : Nat) (w : Int) : Prop := w.bmod M = w

/-- The state with every word of its memory taken modulo `M`. -/
@[simps -fullyApplied] def State.wrap (M : Nat) (m : State) : State :=
  { m with mem := fun a => (m.mem a).bmod M }

/-- Every word of the memory is a number modulo `M`. -/
def Fits (M : Nat) (m : State) : Prop := ∀ a, IsWord M (m.mem a)

/-- One step of the machine whose words are numbers modulo `M`. -/
def stepIn (M : Nat) (P : List Instr) (m : State) : Option State := (step P m).map (State.wrap M)

/-- Some steps of this machine. -/
abbrev RunsIn (M : Nat) (P : List Instr) : State → State → Prop := Reaches (stepIn M P)

def stepsIn (M : Nat) (P : List Instr) : Nat → State → Option State
  | 0, m => some m
  | n + 1, m => (stepIn M P m).bind (stepsIn M P n)

theorem Fits.wrap (h : Fits M m) : m.wrap M = m := by
  obtain ⟨pc, sp, fp, mem⟩ := m
  exact congrArg (State.mk pc sp fp) (funext h)

theorem fits_wrap (M : Nat) (m : State) : Fits M (m.wrap M) := fun _ => Int.bmod_bmod

namespace Fits

theorem drop (h : Fits M m) : Fits M m.drop := h

theorem next (h : Fits M m) : Fits M m.next := h

theorem jumpTo (h : Fits M m) (n : Nat) : Fits M (m.jumpTo n) := h

theorem write (h : Fits M m) (a : Int) {w : Int} (hw : IsWord M w) : Fits M (m.write a w) := by
  intro b
  by_cases hb : b = a
  · simpa [hb] using hw
  · simpa [hb] using h b

theorem push (h : Fits M m) {w : Int} (hw : IsWord M w) : Fits M (m.push w) := h.write _ hw

theorem top (h : Fits M m) : IsWord M m.top := h m.sp

end Fits

theorem wrap_push (m : State) (w : Int) : (m.push w).wrap M = (m.wrap M).push (w.bmod M) := by
  obtain ⟨pc, sp, fp, mem⟩ := m
  refine congrArg (State.mk pc (sp + 8) fp) (funext fun a => ?_)
  by_cases ha : a = sp + 8 <;> simp [Function.update, ha]

/-- Without bounds, the words are those of the machine. -/
theorem stepIn_zero (P : List Instr) : stepIn 0 P = step P := by
  funext m
  have hwrap : State.wrap 0 = id := funext fun m => Fits.wrap fun a => Int.bmod_zero
  rw [stepIn, hwrap, Option.map_id]
  rfl

theorem stepIn_eq {i : Instr} (h : P[m.pc]? = some i) (he : exec P m i = some m₁) :
    stepIn M P m = some (m₁.wrap M) := by
  rw [stepIn, step, h, Option.bind_some, he, Option.map_some]

theorem RunsIn.step {i : Instr} (h : Placed P m.pc (i :: c)) (he : exec P m i = some m₁)
    (hf : Fits M m₁) (hr : RunsIn M P m₁ m') : RunsIn M P m m' :=
  Reaches.head (by rw [stepIn_eq h.head he, hf.wrap]) hr

theorem stepsIn_succ {i : Instr} {n : Nat} (h : P[m.pc]? = some i) (he : exec P m i = some m₁)
    (hw : m₁.wrap M = m₂) : stepsIn M P (n + 1) m = stepsIn M P n m₂ := by
  rw [stepsIn, stepIn_eq h he, hw, Option.bind_some]

/-- A step that writes no other words than those of the machine. -/
theorem stepsIn_fits {i : Instr} {n : Nat} (h : P[m.pc]? = some i) (he : exec P m i = some m₁)
    (hf : Fits M m₁) : stepsIn M P (n + 1) m = stepsIn M P n m₁ := stepsIn_succ h he hf.wrap

theorem stepsIn_add (a b : Nat) : ∀ m : State,
    stepsIn M P (a + b) m = (stepsIn M P a m).bind (stepsIn M P b) := by
  induction a with
  | zero => intro m; rw [Nat.zero_add]; rfl
  | succ a ih =>
    intro m
    rw [Nat.add_right_comm, stepsIn, stepsIn, Option.bind_assoc]
    exact Option.bind_congr fun m₁ _ => ih m₁

theorem runs_of_steps : ∀ {n : Nat} {m : State}, stepsIn M P n m = some m' → RunsIn M P m m'
  | 0, _, h => Option.some.inj h ▸ .refl _
  | _ + 1, _, h => by
    obtain ⟨m₁, h₁, h₂⟩ := Option.bind_eq_some_iff.1 h
    exact .head h₁ (runs_of_steps h₂)

theorem steps_of_runs (h : RunsIn M P m m') : ∃ n, stepsIn M P n m = some m' := by
  induction h using Relation.ReflTransGen.head_induction_on with
  | refl => exact ⟨0, rfl⟩
  | head hs _ ih =>
    obtain ⟨n, hn⟩ := ih
    exact ⟨n + 1, by rw [stepsIn, hs, Option.bind_some, hn]⟩

theorem Fits.run (h : RunsIn M P m m') (hm : Fits M m) : Fits M m' := by
  induction h with
  | refl => exact hm
  | tail _ hs _ =>
    obtain ⟨m₁, -, rfl⟩ := Option.map_eq_some_iff.1 hs
    exact fits_wrap M m₁

end

/-! ## What code leaves on the stack -/

/-- Between `m` and `m'` the word `v` was pushed: below it, only words at addresses of `A` may
have changed. -/
structure Pushes (A : Int → Prop) (m : State) (v : Int) (m' : State) : Prop where
  sp : m'.sp = m.sp + 8
  fp : m'.fp = m.fp
  mem : m'.mem (m.sp + 8) = v
  keeps : ∀ a ≤ m.sp, ¬ A a → m'.mem a = m.mem a

namespace Pushes

variable {A : Int → Prop} {m m₁ m₂ : State} {v w : Int}

theorem push (A : Int → Prop) (m : State) (w : Int) : Pushes A m w (m.push w) :=
  ⟨rfl, rfl, by simp, fun a ha _ => by simp [Function.update_of_ne (show a ≠ m.sp + 8 by omega)]⟩

theorem top (h : Pushes A m v m₁) : m₁.top = v := by rw [State.top, h.sp, h.mem]

theorem next (h : Pushes A m v m₁) : Pushes A m v m₁.next := ⟨h.sp, h.fp, h.mem, h.keeps⟩

theorem jumpTo (h : Pushes A m v m₁) (n : Nat) : Pushes A m v (m₁.jumpTo n) :=
  ⟨h.sp, h.fp, h.mem, h.keeps⟩

/-- What is pushed once a word has been dropped takes its place. -/
theorem after (h : Pushes A m v m₁) (h' : Pushes A m₁.drop w m₂) : Pushes A m w m₂ := by
  have hsp : m₁.drop.sp = m.sp := by simp [h.sp]
  refine ⟨hsp ▸ h'.sp, h'.fp.trans h.fp, hsp ▸ h'.mem, fun a ha hA => ?_⟩
  exact (h'.keeps a (hsp ▸ ha) hA).trans (h.keeps a ha hA)

/-- A word stays where it is while another one comes and goes. -/
theorem under (h : Pushes A m v m₁) (h' : Pushes A m₁ w m₂) (hA : ¬ A (m.sp + 8)) :
    Pushes A m v m₂.drop := by
  refine ⟨by simp [h'.sp, h.sp], h'.fp.trans h.fp, ?_, fun a ha hn => ?_⟩
  · exact (h'.keeps _ (by have := h.sp; omega) hA).trans h.mem
  · exact (h'.keeps a (by have := h.sp; omega) hn).trans (h.keeps a ha hn)

end Pushes

/-! ## Reading intermediate code -/

mutual

def cellInstructions? : Cell → Option (List Instr)
  | .block cs => instructions? cs
  | c => (Instr.ofCell? c).map ([·])

def instructions? : List Cell → Option (List Instr)
  | [] => some []
  | c :: cs => return (← cellInstructions? c) ++ (← instructions? cs)

end

mutual

theorem cellInstructions?_cell : ∀ i : Item, cellInstructions? i.cell = some i.flat
  | .instr i => by
    show (Instr.ofCell? i.cell).map ([·]) = _
    rw [Instr.ofCell?_cell]; rfl
  | .block is => instructions?_cells is

theorem instructions?_cells : ∀ is : List Item,
    instructions? (Item.cells is) = some (Item.flatList is)
  | [] => rfl
  | i :: is => by
    rw [Item.cells, instructions?, cellInstructions?_cell i, instructions?_cells is]; rfl

end

end ExprLang.CMa
