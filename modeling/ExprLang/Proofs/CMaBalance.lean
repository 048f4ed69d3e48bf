/-
  How many words CMa code leaves on the stack.

  Code without calls is followed along any run that comes to the end of the program, through all
  rounds of its loops.  It leaves one word, and one more for every time that a do-while loop is sent
  into another round: the code of that loop keeps the word of the round before, as no other does.

  * `Takes M P n j m m'` is a run of `n` steps that sends do-while loops into `j` further rounds;
  * `Over A m₀ k m`: in `m`, there are `k` words over the stack of `m₀`, which is as it was but for
    the variables `A`;
  * `Passes`: a run comes by the end of a piece of code, and the words over the stack and the rounds
    to come make up one more than before (`codes_passes`);
  * `compile_leaves_words` is the statement about compiled expressions.
-/
import Mathlib
import ExprLang.Proofs.CMaForms

namespace ExprLang.CMa

/-! ## Counted runs -/

/-- The instruction sends a do-while loop into another round. -/
def Instr.again : Instr → Bool
  | .jump (.text l) => "dowhile".toList.isPrefixOf l.toList
  | _ => false

/-- The program runs from one state to another in `n` steps, of which `j` send a do-while loop into
    another round. -/
inductive Takes (M : Nat) (P : List Instr) : Nat → Nat → State → State → Prop where
  | done {m} : Takes M P 0 0 m m
  | step {n j m m₁ m₂ i} (hi : P[m.pc]? = some i) (he : exec P m i = some m₁)
      (h : Takes M P n j (m₁.wrap M) m₂) : Takes M P (n + 1) (j + i.again.toNat) m m₂

variable {M : Nat} {P : List Instr} {m m₁ m' : State} {n j : Nat}

/-- Every run has a number of steps and of further rounds. -/
theorem RunsIn.takes (h : RunsIn M P m m') : ∃ n j, Takes M P n j m m' := by
  induction h using Relation.ReflTransGen.head_induction_on with
  | refl => exact ⟨0, 0, .done⟩
  | head hs _ ih =>
    obtain ⟨n, j, h⟩ := ih
    obtain ⟨m₁, hstep, rfl⟩ := Option.map_eq_some_iff.1 hs
    obtain ⟨i, hi, he⟩ := Option.bind_eq_some_iff.1 hstep
    exact ⟨_, _, .step hi he h⟩

theorem Takes.at_end (h : Takes M P n j m m') (hpc : m.pc = P.length) : j = 0 ∧ m = m' := by
  cases h with
  | done => exact ⟨rfl, rfl⟩
  | step hi _ _ => simp [hpc] at hi

/-- Before its end, a run takes the step that the code says. -/
theorem Takes.head {c : List Instr} {i : Instr} (h : Takes M P n j m m') (hend : m'.pc = P.length)
    (hp : Placed P m.pc (i :: c)) :
    ∃ n₁ j₁ m₁, n = n₁ + 1 ∧ j = j₁ + i.again.toNat ∧ exec P m i = some m₁ ∧
      Takes M P n₁ j₁ (m₁.wrap M) m' := by
  have hi := hp.head
  cases h with
  | done => simp [hend] at hi
  | step hi' he h =>
    obtain rfl := Option.some.inj (hi'.symm.trans hi)
    exact ⟨_, _, _, rfl, rfl, he, h⟩

theorem Takes.rounds_eq_zero (h : Takes M P n j m m') (hP : ∀ i ∈ P, i.again = false) : j = 0 := by
  induction h with
  | done => rfl
  | step hi _ _ ih => simp [ih, hP _ (List.mem_of_getElem? hi)]

/-! ## Words over a stack -/

/-- Over the stack of `m₀` there are `k` words, and below only words at addresses of `A` have
    changed. -/
structure Over (A : Int → Prop) (m₀ : State) (k : Nat) (m : State) : Prop where
  sp : m.sp = m₀.sp + 8 * k
  keeps : ∀ a ≤ m₀.sp, ¬ A a → m.mem a = m₀.mem a

/-- The words that an instruction needs on top of the stack, and those that it leaves in their
    place; for instructions that do nothing else. -/
def Instr.words? : Instr → Option (Nat × Nat)
  | .loadc _ => some (0, 1)
  | .load => some (1, 1)
  | .pop => some (1, 0)
  | .dup => some (1, 2)
  | .swap => some (2, 2)
  | .unary _ => some (1, 1)
  | .binary _ => some (2, 1)
  | .label _ => some (0, 0)
  | _ => none

namespace Over

variable {A : Int → Prop} {m₀ : State} {k : Nat}

theorem refl (A : Int → Prop) (m : State) : Over A m 0 m := ⟨by simp, fun _ _ _ => rfl⟩

theorem drop (h : Over A m₀ (k + 1) m) : Over A m₀ k m.drop :=
  ⟨by simp [h.sp]; omega, h.keeps⟩

theorem push (h : Over A m₀ k m) (w : Int) : Over A m₀ (k + 1) (m.push w) := by
  have hsp := h.sp
  refine ⟨by simp [hsp]; omega, fun a ha hA => ?_⟩
  rw [State.push_mem, Function.update_of_ne (by omega), h.keeps a ha hA]

theorem write (h : Over A m₀ k m) {a : Int} (ha : A a) (w : Int) : Over A m₀ k (m.write a w) := by
  refine ⟨h.sp, fun b hb hA => ?_⟩
  have hne : b ≠ a := fun he => hA (he ▸ ha)
  rw [State.write_mem, Function.update_of_ne hne, h.keeps b hb hA]

theorem next (h : Over A m₀ k m) : Over A m₀ k m.next := ⟨h.sp, h.keeps⟩

theorem jumpTo (h : Over A m₀ k m) (q : Nat) : Over A m₀ k (m.jumpTo q) := ⟨h.sp, h.keeps⟩

theorem wrap (h : Over A m₀ k m) (hf : Fits M m₀) : Over A m₀ k (m.wrap M) := by
  refine ⟨h.sp, fun a ha hA => ?_⟩
  show (m.mem a).bmod M = _
  rw [h.keeps a ha hA, hf a]

theorem exec {i : Instr} {need give : Nat} (h : Over A m₀ (k + need) m)
    (hi : i.words? = some (need, give)) (he : exec P m i = some m₁) :
    m₁.pc = m.pc + 1 ∧ Over A m₀ (k + give) m₁ := by
  cases i with
  | loadc v =>
    cases hi
    obtain ⟨w, -, rfl⟩ := Option.map_eq_some_iff.1 he
    exact ⟨rfl, (h.push w).next⟩
  | load =>
    cases hi
    cases he
    exact ⟨rfl, (h.drop.push _).next⟩
  | pop =>
    cases hi
    cases he
    exact ⟨rfl, h.drop.next⟩
  | dup =>
    cases hi
    cases he
    exact ⟨rfl, (h.push _).next⟩
  | swap =>
    cases hi
    cases he
    exact ⟨rfl, ((h.drop.drop.push _).push _).next⟩
  | unary op =>
    cases hi
    cases he
    exact ⟨rfl, (h.drop.push _).next⟩
  | binary op =>
    cases hi
    obtain ⟨w, -, rfl⟩ := Option.map_eq_some_iff.1 he
    exact ⟨rfl, (h.drop.drop.push w).next⟩
  | label l =>
    cases hi
    cases he
    exact ⟨rfl, h.next⟩
  | _ => cases hi

end Over

/-! ## Along a run -/

/-- The words on top of the stack once some instructions have run, `w` words before. -/
def wordsAfter? : List Instr → Nat → Option Nat
  | [], w => some w
  | i :: c, w =>
    match i.words? with
    | some (need, give) => if need ≤ w then wordsAfter? c (w - need + give) else none
    | none => none

theorem wordsAfter?_cons {i : Instr} {c : List Instr} {w w' : Nat}
    (h : wordsAfter? (i :: c) w = some w') :
    ∃ need give, i.words? = some (need, give) ∧ need ≤ w ∧
      wordsAfter? c (w - need + give) = some w' := by
  rw [wordsAfter?] at h
  split at h
  · rename_i need give hi
    split at h
    · exact ⟨need, give, hi, ‹_›, h⟩
    · cases h
  · cases h

theorem Instr.again_of_words {i : Instr} {p : Nat × Nat} (h : i.words? = some p) :
    i.again = false := by
  cases i with
  | jump l => cases h
  | _ => rfl

/-- A run that comes by `m`, with `k` words over the stack of `m₀`, and from there takes `n` steps
    with `j` further rounds to its end `m'`. -/
structure Passing (M : Nat) (P : List Instr) (A : Int → Prop) (m₀ m' : State) (n j k : Nat)
    (m : State) : Prop where
  fits : Fits M m₀
  words : Over A m₀ k m
  takes : Takes M P n j m m'
  ends : m'.pc = P.length

namespace Passing

variable {A : Int → Prop} {m₀ : State} {k : Nat} {c d : List Instr}

/-- Instructions that only work on top of the stack. -/
theorem plain : ∀ {c : List Instr} {w w' n j : Nat} {m : State},
    Passing M P A m₀ m' n j (k + w) m → Placed P m.pc (c ++ d) → wordsAfter? c w = some w' →
    ∃ n₁ m₁, n = n₁ + c.length ∧ m₁.pc = m.pc + c.length ∧ Passing M P A m₀ m' n₁ j (k + w') m₁
  | [], w, w', n, j, m, h, _, hw => by
    cases hw
    exact ⟨n, m, rfl, rfl, h⟩
  | i :: c, w, w', n, j, m, h, hp, hw => by
    obtain ⟨n₁, j₁, m₁, rfl, rfl, he, ht⟩ := h.takes.head h.ends hp
    obtain ⟨need, give, hi, hneed, hw⟩ := wordsAfter?_cons hw
    have ho : Over A m₀ (k + (w - need) + need) m := by
      rw [Nat.add_assoc, Nat.sub_add_cancel hneed]
      exact h.words
    obtain ⟨hpc, ho⟩ := ho.exec hi he
    have h₁ : Passing M P A m₀ m' n₁ j₁ (k + (w - need + give)) (m₁.wrap M) :=
      ⟨h.fits, by rw [← Nat.add_assoc]; exact ho.wrap h.fits, ht, h.ends⟩
    have hp₁ : Placed P (m₁.wrap M).pc (c ++ d) := hpc ▸ hp.tail
    obtain ⟨n₂, m₂, rfl, hpc₂, h₂⟩ := h₁.plain hp₁ hw
    rw [State.wrap_pc] at hpc₂
    refine ⟨n₂, m₂, by simp only [List.length_cons]; omega,
      by simp only [List.length_cons]; omega, ?_⟩
    simpa [Instr.again_of_words hi] using h₂

theorem assign {a : Int} (h : Passing M P A m₀ m' n j (k + 1) m) (ha : A a) (hword : IsWord M a)
    (hp : Placed P m.pc (.loadc (.int a) :: .store :: c)) :
    ∃ n₁ m₁, n₁ < n ∧ m₁.pc = m.pc + 2 ∧ Passing M P A m₀ m' n₁ j (k + 1) m₁ := by
  obtain ⟨n₁, j₁, m₁, rfl, rfl, he, ht⟩ := h.takes.head h.ends hp
  cases he
  obtain ⟨n₂, j₂, m₂, rfl, rfl, he, ht⟩ := ht.head h.ends hp.tail
  cases he
  refine ⟨n₂, _, by omega, rfl, h.fits, ?_, ht, h.ends⟩
  have htop : ((m.push a).next.wrap M).top = a := by simp [State.top, hword]
  rw [htop]
  exact ((((h.words.push a).next.wrap h.fits).drop).write ha _).next.wrap h.fits

theorem jump {l : String} {q : Nat} (h : Passing M P A m₀ m' n j k m)
    (hP : (labelsOf Instr.name? P).Nodup) (hp : Placed P m.pc (.jump (.text l) :: c))
    (hl : Placed P q (.label (.text l) :: d)) :
    ∃ n₁ j₁ m₁, n₁ < n ∧ j = j₁ + (Instr.jump (.text l)).again.toNat ∧ m₁.pc = q ∧
      Passing M P A m₀ m' n₁ j₁ k m₁ := by
  obtain ⟨n₁, j₁, m₁, rfl, rfl, he, ht⟩ := h.takes.head h.ends hp
  rw [exec, target?_eq hP hl] at he
  cases he
  exact ⟨n₁, j₁, _, by omega, rfl, rfl, h.fits, (h.words.jumpTo q).wrap h.fits, ht, h.ends⟩

theorem jumpz {l : String} {q : Nat} (h : Passing M P A m₀ m' n j (k + 1) m)
    (hP : (labelsOf Instr.name? P).Nodup) (hp : Placed P m.pc (.jumpz (.text l) :: c))
    (hl : Placed P q (.label (.text l) :: d)) :
    ∃ n₁ m₁, n₁ < n ∧ (m₁.pc = q ∨ m₁.pc = m.pc + 1) ∧ Passing M P A m₀ m' n₁ j k m₁ := by
  obtain ⟨n₁, j₁, m₁, rfl, rfl, he, ht⟩ := h.takes.head h.ends hp
  rw [exec, target?_eq hP hl] at he
  split at he <;> cases he
  · exact ⟨n₁, _, by omega, .inl rfl, h.fits, (h.words.drop.jumpTo q).wrap h.fits, ht, h.ends⟩
  · exact ⟨n₁, _, by omega, .inr rfl, h.fits, h.words.drop.next.wrap h.fits, ht, h.ends⟩

end Passing

/-- The run comes by `q`, with a word more than `k` or with several; what is more than one word are
    rounds that no longer lie before it. -/
def Leaves (M : Nat) (P : List Instr) (A : Int → Prop) (m₀ m' : State) (n j k q : Nat) : Prop :=
  ∃ n₁ j₁ k₁ m₁, n₁ ≤ n ∧ k ≤ k₁ ∧ k₁ + j₁ = k + j ∧ m₁.pc = q ∧
    Passing M P A m₀ m' n₁ j₁ (k₁ + 1) m₁

/-- Wherever a run starts with some code, it comes by the end of that code. -/
def Passes (M : Nat) (P : List Instr) (A : Int → Prop) (c : List Instr) : Prop :=
  ∀ ⦃m₀ m' m : State⦄ ⦃n j k : Nat⦄, Placed P m.pc c → Passing M P A m₀ m' n j k m →
    Leaves M P A m₀ m' n j k (m.pc + c.length)

section
variable {A : Int → Prop} {m₀ : State} {k q : Nat} {ca cb ce : List Instr}

theorem Leaves.mono {n₁ j₁ k₁ q₁ : Nat} (h : Leaves M P A m₀ m' n₁ j₁ k₁ q₁) (hn : n₁ ≤ n)
    (hk : k ≤ k₁) (hj : k₁ + j₁ = k + j) (hq : q₁ = q) : Leaves M P A m₀ m' n j k q := by
  obtain ⟨n₂, j₂, k₂, m₂, hn₂, hk₂, hj₂, hpc, h₂⟩ := h
  exact ⟨n₂, j₂, k₂, m₂, by omega, by omega, by omega, hq ▸ hpc, h₂⟩

theorem Passes.plain {c : List Instr} (ha : Passes M P A ca) (hc : wordsAfter? c 1 = some 1) :
    Passes M P A (ca ++ c) := by
  intro m₀ m' m n j k hp h
  obtain ⟨n₁, j₁, k₁, m₁, hn, hk, hj, hpc, h₁⟩ := ha hp.left h
  obtain ⟨n₂, m₂, rfl, hpc₂, h₂⟩ := h₁.plain (c := c) (d := []) (by simpa using hp.behind hpc) hc
  exact ⟨n₂, j₁, k₁, m₂, by omega, hk, hj, by rw [List.length_append]; omega, h₂⟩

theorem passes_plain {c : List Instr} (hc : wordsAfter? c 0 = some 1) : Passes M P A c := by
  intro m₀ m' m n j k hp h
  obtain ⟨n₁, m₁, rfl, hpc, h₁⟩ := h.plain (c := c) (w := 0) (d := []) (by simpa using hp) hc
  exact ⟨n₁, j, k, m₁, by omega, le_rfl, rfl, hpc, h₁⟩

theorem passes_binary {o : BinaryOp} (ha : Passes M P A ca) (hb : Passes M P A cb) :
    Passes M P A (ca ++ (cb ++ [.binary o])) := by
  intro m₀ m' m n j k hp h
  obtain ⟨n₁, j₁, k₁, m₁, hn₁, hk₁, hj₁, hpc₁, h₁⟩ := ha hp.left h
  have hp₁ := hp.behind hpc₁
  obtain ⟨n₂, j₂, k₂, m₂, hn₂, hk₂, hj₂, hpc₂, h₂⟩ := hb hp₁.left h₁
  obtain ⟨k₃, rfl⟩ : ∃ k₃, k₂ = k₃ + 1 := ⟨k₂ - 1, by omega⟩
  obtain ⟨n₃, m₃, rfl, hpc₃, h₃⟩ :=
    h₂.plain (c := [.binary o]) (k := k₃) (w := 2) (hp₁.behind hpc₂) rfl
  refine ⟨n₃, j₂, k₃, m₃, by omega, by omega, by omega, ?_, h₃⟩
  simp only [List.length_append, List.length_cons, List.length_nil] at hpc₃ ⊢
  omega

theorem passes_assign {a : Int} (hA : A a) (hword : IsWord M a) (ha : Passes M P A ca) :
    Passes M P A (ca ++ [.loadc (.int a), .store]) := by
  intro m₀ m' m n j k hp h
  obtain ⟨n₁, j₁, k₁, m₁, hn, hk, hj, hpc, h₁⟩ := ha hp.left h
  obtain ⟨n₂, m₂, hn₂, hpc₂, h₂⟩ := h₁.assign hA hword (hp.behind hpc)
  exact ⟨n₂, j₁, k₁, m₂, by omega, hk, hj, by simp [hpc₂, hpc]; omega, h₂⟩

theorem passes_before (ha : Passes M P A ca) (hb : Passes M P A cb) :
    Passes M P A (ca ++ .pop :: cb) := by
  intro m₀ m' m n j k hp h
  obtain ⟨n₁, j₁, k₁, m₁, hn₁, hk₁, hj₁, hpc₁, h₁⟩ := ha hp.left h
  have hp₁ := hp.behind hpc₁
  obtain ⟨n₂, m₂, rfl, hpc₂, h₂⟩ := h₁.plain (c := [.pop]) hp₁ rfl
  refine (hb (hpc₂ ▸ hp₁.tail) h₂).mono (by omega) hk₁ hj₁ ?_
  simp only [List.length_append, List.length_cons, List.length_nil] at hpc₂ ⊢
  omega

variable (hP : (labelsOf Instr.name? P).Nodup)
include hP

theorem passes_if {i th el en : String} (hen : (Instr.jump (.text en)).again = false)
    (he : Passes M P A ce) (ha : Passes M P A ca) (hb : Passes M P A cb) :
    Passes M P A (ifCode i th el en ce ca cb) := by
  intro m₀ m' m n j k hp h
  rw [ifCode] at hp ⊢
  obtain ⟨n₁, m₁, rfl, hpc₁, h₁⟩ := h.plain (c := [.label (.text i)]) (w := 0) hp rfl
  have hp₁ : Placed P m₁.pc _ := hpc₁ ▸ hp.tail
  obtain ⟨n₂, j₂, k₂, m₂, hn₂, hk₂, hj₂, hpc₂, h₂⟩ := he hp₁.left h₁
  have hp₂ := hp₁.behind hpc₂
  have hel := hp₂.tail.tail.right.tail
  have hend := hel.tail.right
  obtain ⟨n₃, m₃, hn₃, hpc₃ | hpc₃, h₃⟩ := h₂.jumpz hP hp₂ hel
  · -- The last part runs into the end.
    obtain ⟨n₄, m₄, rfl, hpc₄, h₄⟩ :=
      h₃.plain (c := [.label (.text el)]) (w := 0) (hpc₃ ▸ hel) rfl
    have hp₄ : Placed P m₄.pc _ := hpc₄ ▸ hpc₃ ▸ hel.tail
    refine ((hb.plain (c := [.label (.text en)]) rfl) hp₄ h₄).mono (by omega) hk₂ hj₂ ?_
    simp only [List.length_append, List.length_cons, List.length_nil] at hpc₁ hpc₄ ⊢
    omega
  · -- The middle part jumps over the last one.
    obtain ⟨n₄, m₄, rfl, hpc₄, h₄⟩ :=
      h₃.plain (c := [.label (.text th)]) (w := 0) (hpc₃ ▸ hp₂.tail) rfl
    have hp₄ : Placed P m₄.pc _ := hpc₄ ▸ hpc₃ ▸ hp₂.tail.tail
    obtain ⟨n₅, j₅, k₅, m₅, hn₅, hk₅, hj₅, hpc₅, h₅⟩ := ha hp₄.left h₄
    obtain ⟨n₆, j₆, m₆, hn₆, rfl, hpc₆, h₆⟩ := h₅.jump hP (hp₄.behind hpc₅) hend
    obtain ⟨n₇, m₇, rfl, hpc₇, h₇⟩ :=
      h₆.plain (c := [.label (.text en)]) (k := k₅) (w := 1) (hpc₆ ▸ hend) rfl
    rw [hen, Bool.toNat_false] at hj₅
    refine ⟨n₇, j₆, k₅, m₇, by omega, by omega, by omega, ?_, h₇⟩
    simp only [List.length_append, List.length_cons, List.length_nil] at hpc₁ hpc₇ ⊢
    omega

/-- A while loop at its label, with the result so far on the stack. -/
theorem passes_while {wh en : String} (hwh : (Instr.jump (.text wh)).again = false)
    (he : Passes M P A ce) (ha : Passes M P A ca) : ∀ {n j k : Nat} {m : State},
    Placed P m.pc (whileCode wh en ce ca) → Passing M P A m₀ m' n j (k + 1) m →
    Leaves M P A m₀ m' n j k (m.pc + (whileCode wh en ce ca).length) := by
  -- By induction on the steps to come: a round that goes back to the label has taken some.
  intro n
  induction n using Nat.strong_induction_on with | _ n ih
  intro j k m hp h
  have hloop := hp
  rw [whileCode] at hp
  obtain ⟨n₁, m₁, rfl, hpc₁, h₁⟩ := h.plain (c := [.label (.text wh)]) hp rfl
  have hp₁ : Placed P m₁.pc _ := hpc₁ ▸ hp.tail
  obtain ⟨n₂, j₂, k₂, m₂, hn₂, hk₂, hj₂, hpc₂, h₂⟩ := he hp₁.left h₁
  have hp₂ := hp₁.behind hpc₂
  have hend := hp₂.tail.tail.right.tail
  obtain ⟨k₃, rfl⟩ : ∃ k₃, k₂ = k₃ + 1 := ⟨k₂ - 1, by omega⟩
  obtain ⟨n₃, m₃, hn₃, hpc₃ | hpc₃, h₃⟩ := h₂.jumpz hP hp₂ hend
  · obtain ⟨n₄, m₄, rfl, hpc₄, h₄⟩ := h₃.plain (c := [.label (.text en)]) (hpc₃ ▸ hend) rfl
    refine ⟨n₄, j₂, k₃, m₄, by omega, by omega, by omega, ?_, h₄⟩
    simp only [whileCode, List.length_append, List.length_cons, List.length_nil] at hpc₁ hpc₄ ⊢
    omega
  · obtain ⟨n₄, m₄, rfl, hpc₄, h₄⟩ := h₃.plain (c := [.pop]) (hpc₃ ▸ hp₂.tail) rfl
    have hp₄ : Placed P m₄.pc _ := hpc₄ ▸ hpc₃ ▸ hp₂.tail.tail
    obtain ⟨n₅, j₅, k₅, m₅, hn₅, hk₅, hj₅, hpc₅, h₅⟩ := ha hp₄.left h₄
    obtain ⟨n₆, j₆, m₆, hn₆, rfl, hpc₆, h₆⟩ := h₅.jump hP (hp₄.behind hpc₅) hp
    rw [hwh, Bool.toNat_false] at hj₅
    exact (ih n₆ (by omega) (hpc₆ ▸ hloop) h₆).mono (by omega) (by omega) (by omega)
      (by rw [hpc₆])

/-- A counting loop at its label, with the result so far and the counter on the stack. -/
theorem passes_loop {lo en : String} (hlo : (Instr.jump (.text lo)).again = false)
    (ha : Passes M P A ca) : ∀ {n j k : Nat} {m : State},
    Placed P m.pc (loopCode lo en ca) → Passing M P A m₀ m' n j (k + 2) m →
    Leaves M P A m₀ m' n j k (m.pc + (loopCode lo en ca).length) := by
  intro n
  induction n using Nat.strong_induction_on with | _ n ih
  intro j k m hp h
  have hloop := hp
  rw [loopCode] at hp
  have hend := hp.tail.tail.tail.tail.tail.tail.right.tail.tail
  obtain ⟨n₁, m₁, rfl, hpc₁, h₁⟩ := h.plain (c := [.label (.text lo), .dup]) hp rfl
  have hp₁ : Placed P m₁.pc _ := hpc₁ ▸ hp.tail.tail
  obtain ⟨n₂, m₂, hn₂, hpc₂ | hpc₂, h₂⟩ := h₁.jumpz (k := k + 2) hP hp₁ hend
  · obtain ⟨n₃, m₃, rfl, hpc₃, h₃⟩ :=
      h₂.plain (c := [.label (.text en), .pop]) (hpc₂ ▸ hend) rfl
    refine ⟨n₃, j, k, m₃, by omega, le_rfl, rfl, ?_, h₃⟩
    simp only [loopCode, List.length_append, List.length_cons, List.length_nil] at hpc₃ ⊢
    omega
  · obtain ⟨n₃, m₃, rfl, hpc₃, h₃⟩ :=
      h₂.plain (c := [.unary .dec, .swap, .pop]) (hpc₂ ▸ hp₁.tail) rfl
    have hp₃ : Placed P m₃.pc _ := hpc₃ ▸ hpc₂ ▸ hp₁.tail.tail.tail.tail
    obtain ⟨n₄, j₄, k₄, m₄, hn₄, hk₄, hj₄, hpc₄, h₄⟩ := ha hp₃.left h₃
    obtain ⟨k₅, rfl⟩ : ∃ k₅, k₄ = k₅ + 1 := ⟨k₄ - 1, by omega⟩
    have hp₄ := hp₃.behind hpc₄
    obtain ⟨n₅, m₅, rfl, hpc₅, h₅⟩ := h₄.plain (c := [.swap]) (k := k₅) (w := 2) hp₄ rfl
    obtain ⟨n₆, j₆, m₆, hn₆, rfl, hpc₆, h₆⟩ := h₅.jump hP (hpc₅ ▸ hp₄.tail) hp
    rw [hlo, Bool.toNat_false] at hj₄
    exact (ih n₆ (by omega) (hpc₆ ▸ hloop) h₆).mono (by omega) (by omega) (by omega)
      (by rw [hpc₆])

def doWhileCode (dw en : String) (ca ce : List Instr) : List Instr :=
  .label (.text dw) :: (ca ++ (ce ++ [.jumpz (.text en), .jump (.text dw), .label (.text en)]))

/-- **A do-while loop goes back with the result of the round on the stack.** -/
theorem passes_doWhile {dw en : String} (hdw : (Instr.jump (.text dw)).again = true)
    (ha : Passes M P A ca) (he : Passes M P A ce) : Passes M P A (doWhileCode dw en ca ce) := by
  intro m₀ m' m n
  induction n using Nat.strong_induction_on generalizing m with | _ n ih
  intro j k hp h
  have hloop := hp
  rw [doWhileCode] at hp
  obtain ⟨n₁, m₁, rfl, hpc₁, h₁⟩ := h.plain (c := [.label (.text dw)]) (w := 0) hp rfl
  have hp₁ : Placed P m₁.pc _ := hpc₁ ▸ hp.tail
  obtain ⟨n₂, j₂, k₂, m₂, hn₂, hk₂, hj₂, hpc₂, h₂⟩ := ha hp₁.left h₁
  have hp₂ := hp₁.behind hpc₂
  obtain ⟨n₃, j₃, k₃, m₃, hn₃, hk₃, hj₃, hpc₃, h₃⟩ := he hp₂.left h₂
  obtain ⟨k₄, rfl⟩ : ∃ k₄, k₃ = k₄ + 1 := ⟨k₃ - 1, by omega⟩
  have hp₃ := hp₂.behind hpc₃
  have hend := hp₃.tail.tail
  obtain ⟨n₄, m₄, hn₄, hpc₄ | hpc₄, h₄⟩ := h₃.jumpz hP hp₃ hend
  · obtain ⟨n₅, m₅, rfl, hpc₅, h₅⟩ := h₄.plain (c := [.label (.text en)]) (hpc₄ ▸ hend) rfl
    refine ⟨n₅, j₃, k₄, m₅, by omega, by omega, by omega, ?_, h₅⟩
    simp only [doWhileCode, List.length_append, List.length_cons, List.length_nil] at hpc₁ hpc₅ ⊢
    omega
  · obtain ⟨n₅, j₅, m₅, hn₅, rfl, hpc₅, h₅⟩ := h₄.jump hP (hpc₄ ▸ hp₃.tail) hp
    rw [hdw, Bool.toNat_true] at hj₃
    exact (ih n₅ (by omega) (hpc₅ ▸ hloop) h₅).mono (by omega) (by omega) (by omega)
      (by rw [hpc₅])

theorem passes_proc {en : String} {l a v : Cell} (hen : (Instr.jump (.text en)).again = false) :
    Passes M P A (.jump (.text en) :: .label l :: .enter :: .alloc a :: (cb ++
      [.loadrc (.int (-16)), .store, .pop, .ret, .label (.text en), .loadc v])) := by
  intro m₀ m' m n j k hp h
  have hend := hp.tail.tail.tail.tail.right.tail.tail.tail.tail
  obtain ⟨n₁, j₁, m₁, hn₁, rfl, hpc₁, h₁⟩ := h.jump hP hp hend
  obtain ⟨n₂, m₂, rfl, hpc₂, h₂⟩ :=
    h₁.plain (c := [.label (.text en), .loadc v]) (w := 0) (hpc₁ ▸ hend) rfl
  rw [hen, Bool.toNat_false]
  refine ⟨n₂, j₁, k, m₂, by omega, le_rfl, rfl, ?_, h₂⟩
  simp only [List.length_append, List.length_cons, List.length_nil] at hpc₂ ⊢
  omega

end

/-! ## Expressions -/

theorem again_numbered (name : String) (n : Nat) :
    (Instr.jump (numbered name n)).again =
      "dowhile".toList.isPrefixOf (name.toList ++ (toString n).toList) := by
  rw [numbered, Instr.again, String.toList_append]

/-- Outside of procedures, variables are global. -/
theorem addressOf_eq {G frame : Slots} (hP : Program P G) (hf : frame = []) {x : String}
    {slot : Slot} (hx : (frame.lookup x).or (G.lookup x) = some slot) :
    G.lookup x = some slot ∧ addressOf slot = .loadc (.int slot.address) := by
  have hG : G.lookup x = some slot := by simpa [hf] using hx
  exact ⟨hG, if_pos (hP.global hG)⟩

/-- **Code without calls is passed**, with its variables outside of the stack. -/
theorem codes_passes {G : Slots} (hP : Program P G) (hG : ∀ a, IsAddress G a → IsWord M a) :
    ∀ {frame : Slots} {e : Expr} {c : List Item},
    Codes G frame e c → frame = [] → ¬ e.Has Expr.IsCall →
    Passes M P (IsAddress G) (Item.flatList c)
  | _, _, _, .number, _, _ => passes_plain rfl
  | _, _, _, .unary ha, hf, hc => by
    rw [flatList_append]
    exact (codes_passes hP hG ha hf (Expr.not_has_part hc (by simp [Expr.parts]))).plain rfl
  | _, _, _, .binary ha hb, hf, hc => by
    rw [flatList_append, flatList_append, List.append_assoc]
    exact passes_binary (codes_passes hP hG ha hf (Expr.not_has_part hc (by simp [Expr.parts])))
      (codes_passes hP hG hb hf (Expr.not_has_part hc (by simp [Expr.parts])))
  | _, _, _, .assign ha hx, hf, hc => by
    obtain ⟨hslot, hcode⟩ := addressOf_eq hP hf hx
    rw [flatList_append, flatList_instr, flatList_instr, hcode]
    exact passes_assign ⟨_, _, hslot, rfl⟩ (hG _ ⟨_, _, hslot, rfl⟩)
      (codes_passes hP hG ha hf (Expr.not_has_part hc (by simp [Expr.parts])))
  | _, _, _, .var hx, hf, _ => by
    obtain ⟨-, hcode⟩ := addressOf_eq hP hf hx
    rw [flatList_instr, flatList_instr, hcode]
    exact passes_plain rfl
  | _, _, _, .last ha, hf, hc =>
    codes_passes hP hG ha hf (Expr.not_has_part hc (by simp [Expr.parts]))
  | _, _, _, .before ha hs, hf, hc => by
    rw [flatList_append, flatList_instr]
    exact passes_before (codes_passes hP hG ha hf (Expr.not_has_part hc (by simp [Expr.parts])))
      (codes_passes hP hG hs hf (Expr.not_has_tail hc id))
  | _, _, _, .ifThen he ha hb, hf, hc => by
    simp only [ifItems, flatList_append, flatList_instr, flatList_nil, List.append_assoc,
      List.cons_append]
    exact passes_if hP.labels (again_numbered "endif" _)
      (codes_passes hP hG he hf (Expr.not_has_part hc (by simp [Expr.parts])))
      (codes_passes hP hG ha hf (Expr.not_has_part hc (by simp [Expr.parts])))
      (codes_passes hP hG hb hf (Expr.not_has_part hc (by simp [Expr.parts])))
  | _, _, _, .ifOnly he ha, hf, hc => by
    simp only [ifItems, flatList_append, flatList_instr, flatList_nil, List.append_assoc,
      List.cons_append]
    exact passes_if hP.labels (again_numbered "endif" _)
      (codes_passes hP hG he hf (Expr.not_has_part hc (by simp [Expr.parts])))
      (codes_passes hP hG ha hf (Expr.not_has_part hc (by simp [Expr.parts])))
      (passes_plain (c := [.loadc (.int 0)]) rfl)
  | _, _, _, .whileDo he ha, hf, hc => by
    simp only [flatList_append, flatList_instr, flatList_block, flatList_nil, List.cons_append]
    intro m₀ m' m n j k hp h
    obtain ⟨n₁, m₁, rfl, hpc₁, h₁⟩ := h.plain (c := [.loadc (.int 0)]) (w := 0) hp rfl
    refine (passes_while hP.labels (again_numbered "while" _)
      (codes_passes hP hG he hf (Expr.not_has_part hc (by simp [Expr.parts])))
      (codes_passes hP hG ha hf (Expr.not_has_part hc (by simp [Expr.parts])))
      (hpc₁ ▸ hp.tail) h₁).mono (by omega) le_rfl rfl ?_
    simp only [whileCode, List.length_append, List.length_cons, List.length_nil] at hpc₁ ⊢
    omega
  | _, _, _, .loop hn ha, hf, hc => by
    simp only [flatList_append, flatList_instr, flatList_nil, List.append_assoc, List.cons_append,
      List.nil_append]
    intro m₀ m' m n j k hp h
    obtain ⟨n₁, m₁, rfl, hpc₁, h₁⟩ := h.plain (c := [.loadc (.int 0)]) (w := 0) hp rfl
    have hp₁ : Placed P m₁.pc _ := hpc₁ ▸ hp.tail
    obtain ⟨n₂, j₂, k₂, m₂, hn₂, hk₂, hj₂, hpc₂, h₂⟩ :=
      codes_passes hP hG hn hf (Expr.not_has_part hc (by simp [Expr.parts])) hp₁.left h₁
    obtain ⟨k₃, rfl⟩ : ∃ k₃, k₂ = k₃ + 1 := ⟨k₂ - 1, by omega⟩
    refine (passes_loop hP.labels (again_numbered "loop" _)
      (codes_passes hP hG ha hf (Expr.not_has_part hc (by simp [Expr.parts])))
      (hp₁.behind hpc₂) h₂).mono (by omega) (by omega) (by omega) ?_
    simp only [loopCode, List.length_append, List.length_cons, List.length_nil] at hpc₁ ⊢
    omega
  | _, _, _, .doWhile ha he, hf, hc => by
    simp only [flatList_append, flatList_instr, flatList_nil, List.append_assoc, List.cons_append]
    exact passes_doWhile hP.labels (again_numbered "dowhile" _)
      (codes_passes hP hG ha hf (Expr.not_has_part hc (by simp [Expr.parts])))
      (codes_passes hP hG he hf (Expr.not_has_part hc (by simp [Expr.parts])))
  | _, _, _, .proc _, _, _ => by
    simp only [flatList_append, flatList_instr, flatList_nil, List.cons_append, List.nil_append]
    exact passes_proc hP.labels (again_numbered "endproc" _)
  | _, _, _, .call hargs hf, _, hc => by
    exact absurd (Expr.has_iff.2 (.inl trivial)) hc

/-- No instruction sends a do-while loop into another round. -/
def Quiet (c : List Instr) : Prop := ∀ i ∈ c, i.again = false

@[simp] theorem quiet_nil : Quiet [] := by simp [Quiet]

@[simp] theorem quiet_cons {i : Instr} {c : List Instr} :
    Quiet (i :: c) ↔ i.again = false ∧ Quiet c := List.forall_mem_cons

@[simp] theorem quiet_append {c d : List Instr} : Quiet (c ++ d) ↔ Quiet c ∧ Quiet d :=
  List.forall_mem_append

@[simp] theorem again_of_ne_jump {i : Instr} (h : ∀ l, i ≠ .jump l) : i.again = false := by
  cases i with
  | jump l => exact absurd rfl (h l)
  | _ => rfl

@[simp] theorem again_addressOf (slot : Slot) : (addressOf slot).again = false := by
  unfold addressOf
  split <;> rfl

mutual

theorem codes_quiet {G : Slots} : ∀ {frame : Slots} {e : Expr} {c : List Item},
    Codes G frame e c → ¬ e.Has Expr.IsDoWhile → Quiet (Item.flatList c)
  | _, _, _, .number, _ | _, _, _, .var _, _ => by simp
  | _, _, _, .last ha, hd => codes_quiet ha (Expr.not_has_part hd (by simp [Expr.parts]))
  | _, _, _, .unary ha, hd | _, _, _, .assign ha _, hd => by
    simp [codes_quiet ha (Expr.not_has_part hd (by simp [Expr.parts]))]
  | _, _, _, .binary ha hb, hd => by
    simp [codes_quiet ha (Expr.not_has_part hd (by simp [Expr.parts])),
      codes_quiet hb (Expr.not_has_part hd (by simp [Expr.parts]))]
  | _, _, _, .before ha hs, hd => by
    simp [codes_quiet ha (Expr.not_has_part hd (by simp [Expr.parts])),
      codes_quiet hs (Expr.not_has_tail hd id)]
  | _, _, _, .ifThen he ha hb, hd => by
    have hj : ∀ n, (Instr.jump (numbered "endif" n)).again = false := again_numbered "endif"
    simp [ifItems, codes_quiet he (Expr.not_has_part hd (by simp [Expr.parts])),
      codes_quiet ha (Expr.not_has_part hd (by simp [Expr.parts])),
      codes_quiet hb (Expr.not_has_part hd (by simp [Expr.parts])), hj]
  | _, _, _, .ifOnly he ha, hd => by
    have hj : ∀ n, (Instr.jump (numbered "endif" n)).again = false := again_numbered "endif"
    simp [ifItems, codes_quiet he (Expr.not_has_part hd (by simp [Expr.parts])),
      codes_quiet ha (Expr.not_has_part hd (by simp [Expr.parts])), hj]
  | _, _, _, .whileDo he ha, hd => by
    have hj : ∀ n, (Instr.jump (numbered "while" n)).again = false := again_numbered "while"
    simp [codes_quiet he (Expr.not_has_part hd (by simp [Expr.parts])),
      codes_quiet ha (Expr.not_has_part hd (by simp [Expr.parts])), hj]
  | _, _, _, .loop hn ha, hd => by
    have hj : ∀ n, (Instr.jump (numbered "loop" n)).again = false := again_numbered "loop"
    simp [codes_quiet hn (Expr.not_has_part hd (by simp [Expr.parts])),
      codes_quiet ha (Expr.not_has_part hd (by simp [Expr.parts])), hj]
  | _, _, _, .doWhile _ _, hd => absurd (Expr.has_iff.2 (.inl trivial)) hd
  | _, _, _, .proc hb, hd => by
    have hj : ∀ n, (Instr.jump (numbered "endproc" n)).again = false := again_numbered "endproc"
    simp [codes_quiet hb (Expr.not_has_part hd (by simp [Expr.parts])), hj]
  | _, _, _, .call hargs hf, hd => by
    simp [codesArgs_quiet hargs fun a ha => Expr.not_has_part hd (by simp [Expr.parts, ha]),
      codes_quiet hf (Expr.not_has_part hd (by simp [Expr.parts]))]

theorem codesArgs_quiet {G : Slots} : ∀ {frame : Slots} {es : List Expr} {c : List Item},
    CodesArgs G frame es c → (∀ e ∈ es, ¬ e.Has Expr.IsDoWhile) → Quiet (Item.flatList c)
  | _, _, _, .nil, _ => by simp
  | _, _, _, .cons ha hs, hd => by
    simp [codesArgs_quiet hs fun a ha => hd a (.tail _ ha), codes_quiet ha (hd _ (by simp))]

end

/-! ## Compiled expressions -/

theorem Over.operands {A : Int → Prop} {m₀ : State} {base : Int} {s : List Int}
    (hb : ∀ a, A a → a ≤ base) (hs : Operands m₀.mem base m₀.sp s) :
    ∀ {k : Nat} {m : State}, Over A m₀ k m →
      ∃ ws, ws.length = k ∧ Operands m.mem base m.sp (ws ++ s)
  | 0, m, h => by
    have hsp : m.sp = m₀.sp := by simpa using h.sp
    refine ⟨[], rfl, hsp ▸ hs.congr fun a h₁ h₂ => h.keeps a h₂ fun hA => ?_⟩
    have := hb a hA
    omega
  | k + 1, m, h => by
    obtain ⟨ws, hlen, hws⟩ := Over.operands hb hs h.drop
    exact ⟨m.top :: ws, by simp [hlen], rfl, hws⟩

/-- **Code without calls leaves one word, and one more for every further round of a do-while
loop.**  Say that all words are numbers modulo `M`, and that the addresses of the variables are such.
Whatever the operand stack is, a run of compiled code that comes to its end pushes `j + 1`
words on it, if it sends do-while loops into `j` further rounds; without such loops in the
expression, `j` is zero.  The variables lie below the operand stack. -/
theorem compile_leaves_words {e : Expr} {st st' : GenState} {c : Compiled}
    (hc : (compile .cma (some e)).Gives st c st') (hcalls : ¬ e.Has Expr.IsCall) :
    ∃ P, instructions? c.code = some P ∧
      ∀ {M : Nat} {m m' : State} {base : Int} {s : List Int}, m.pc = 0 → Fits M m →
        (∀ a, IsAddress c.globals a → IsWord M a) → Below c.globals base →
        Operands m.mem base m.sp s → RunsIn M P m m' → m'.pc = P.length →
        ∃ n j ws, Takes M P n j m m' ∧ (¬ e.Has Expr.IsDoWhile → j = 0) ∧ ws.length = j + 1 ∧
          Operands m'.mem base m'.sp (ws ++ s) := by
  obtain ⟨is, hv, rfl⟩ := compile_gives hc
  have hem := value_emits [] e hv
  have hlaid : Laid st' := hem.laid ⟨by simp, by simp, by simp⟩
  have hP : Program (Item.flatList is) st'.globals := ⟨hem.nodup, hlaid.global, hlaid.apart⟩
  have hcodes : Codes st'.globals [] e is := value_codes [] e hv fun _ _ => id
  refine ⟨_, instructions?_cells is, fun {M m m' base s} hpc hfits hG hb hs hr hend => ?_⟩
  obtain ⟨n, j, ht⟩ := hr.takes
  obtain ⟨n₁, j₁, k₁, m₁, -, -, hj, hpc₁, h₁⟩ :=
    codes_passes hP hG hcodes rfl hcalls (hpc ▸ Placed.whole _) ⟨hfits, .refl _ m, ht, hend⟩
  obtain ⟨rfl, rfl⟩ := h₁.takes.at_end (by simpa [hpc] using hpc₁)
  obtain ⟨ws, hlen, hws⟩ := h₁.words.operands hb hs
  exact ⟨n, j, ws, ht, fun hd => ht.rounds_eq_zero (codes_quiet hcodes hd), by omega, hws⟩

/-- An operand stack has as many words as lie between its base and its top. -/
theorem Operands.sp_eq {mem : Int → Int} {base : Int} : ∀ {sp : Int} {s : List Int},
    Operands mem base sp s → sp = base + 8 * s.length
  | _, [], h => by simpa [Operands] using h
  | _, _ :: _, ⟨_, h⟩ => by
    have := h.sp_eq
    simp only [List.length_cons]
    omega

/-- `{x = 2; do x = x - 1 while x}` leaves two words, here of 64 bits: the loop goes into its second
    round with the result of the first one on the stack. -/
theorem compile_leaves_words_countdown :
    let p : Pos := ⟨[], 1, 1⟩
    let x := Expr.var p "x"
    let e := Expr.sequence p [.assign p (.var p "x") (.number p "2"),
      .doWhile p x (.assign p (.var p "x") (.binary p .minus x (.number p "1")))]
    ¬ e.Has Expr.IsCall ∧
    ∃ c st P m' n j ws, (compile .cma (some e)).Gives .initial c st ∧
      instructions? c.code = some P ∧ RunsIn (2 ^ 64) P ⟨0, 8, 0, fun _ => 7⟩ m' ∧
      m'.pc = P.length ∧ Takes (2 ^ 64) P n j ⟨0, 8, 0, fun _ => 7⟩ m' ∧ j = 1 ∧ ws.length = 2 ∧
      Operands m'.mem 0 m'.sp (ws ++ [7]) := by
  intro p x e
  let P : List Instr := [.loadc (.text "2"), .loadc (.int 0), .store, .pop,
    .label (.text "dowhile0"), .loadc (.int 0), .load, .loadc (.text "1"), .binary .sub,
    .loadc (.int 0), .store, .loadc (.int 0), .load, .jumpz (.text "enddowhile0"),
    .jump (.text "dowhile0"), .label (.text "enddowhile0")]
  have hnumber : ∀ text, ¬ (Expr.number p text).Has Expr.IsCall := fun text =>
    Expr.not_has_of_parts id (by simp [Expr.parts])
  have hx : ¬ x.Has Expr.IsCall := Expr.not_has_of_parts id (by simp [x, Expr.parts])
  have hassign : ∀ a : Expr, ¬ a.Has Expr.IsCall →
      ¬ (Expr.assign p (.var p "x") a).Has Expr.IsCall := fun a ha =>
    Expr.not_has_of_parts id (by simpa [Expr.parts] using ha)
  have hminus : ¬ (Expr.binary p .minus x (.number p "1")).Has Expr.IsCall :=
    Expr.not_has_of_parts id (by simp [Expr.parts, hx, hnumber])
  have hloop : ¬ (Expr.doWhile p x (.assign p (.var p "x")
      (.binary p .minus x (.number p "1")))).Has Expr.IsCall :=
    Expr.not_has_of_parts id (by simp [Expr.parts, hx, hassign _ hminus])
  have hcalls : ¬ e.Has Expr.IsCall :=
    Expr.not_has_of_parts id (by simp [e, Expr.parts, hassign _ (hnumber "2"), hloop])
  have hc : (compile .cma (some e)).Gives .initial _ _ := rfl
  have haddress : ∀ a, IsAddress [("x", ⟨.global, 0, some 8⟩)] a → a = 0 := by
    rintro a ⟨y, slot, hy, rfl⟩
    cases hyx : y == "x" <;> rw [List.lookup_cons, hyx] at hy <;> cases hy
    rfl
  have hseven : IsWord (2 ^ 64) 7 := by decide
  obtain ⟨Q, hQ, run⟩ := compile_leaves_words hc hcalls
  obtain rfl : P = Q := Option.some.inj (Eq.trans rfl hQ)
  let m' : State := (stepsIn (2 ^ 64) P 26 ⟨0, 8, 0, fun _ => 7⟩).get (by decide +kernel)
  have hr : RunsIn (2 ^ 64) P ⟨0, 8, 0, fun _ => 7⟩ m' := runs_of_steps (Option.some_get _).symm
  have hend : m'.pc = P.length := by decide +kernel
  have hsp : m'.sp = 24 := by decide +kernel
  obtain ⟨n, j, ws, ht, -, hlen, hws⟩ := run (m := ⟨0, 8, 0, fun _ => 7⟩) (s := [7]) rfl
    (fun _ => hseven) (fun a ha => haddress a ha ▸ Int.zero_bmod)
    (fun a ha => Int.le_of_eq (haddress a ha)) ⟨rfl, rfl⟩ hr hend
  have htop := hws.sp_eq
  rw [hsp, List.length_append] at htop
  have hj : j = 1 := by
    simp only [List.length_cons, List.length_nil] at htop
    omega
  exact ⟨hcalls, _, _, P, m', n, j, ws, hc, hQ, hr, hend, ht, hj, by omega, hws⟩

end ExprLang.CMa
