/-
  Code and where it stands.

  Generated code is part of a longer program.  `Placed P n c` says that the instructions `c` stand
  in the program `P` from position `n` on; from it, every part of `c` has its place as well.

  * `position?` is the place of a label, and `position?_eq`: in a program whose labels all differ,
    it is the place where the label stands;
  * `Reaches` is a run of a machine, step by step.
-/
import Mathlib.Logic.Relation
import Mathlib.Data.List.Nodup

namespace ExprLang

variable {ι : Type} {P c d : List ι} {i : ι} {n : Nat}

/-! ## Places -/

/-- The instructions `c` stand in `P` from position `n` on. -/
def Placed (P : List ι) (n : Nat) (c : List ι) : Prop :=
  ∃ before after, P = before ++ c ++ after ∧ before.length = n

namespace Placed

theorem whole (P : List ι) : Placed P 0 P := ⟨[], [], by simp, rfl⟩

theorem head (h : Placed P n (i :: c)) : P[n]? = some i := by
  obtain ⟨before, after, rfl, rfl⟩ := h
  simp

theorem tail (h : Placed P n (i :: c)) : Placed P (n + 1) c := by
  obtain ⟨before, after, rfl, rfl⟩ := h
  exact ⟨before ++ [i], after, by simp, by simp⟩

theorem left (h : Placed P n (c ++ d)) : Placed P n c := by
  obtain ⟨before, after, rfl, rfl⟩ := h
  exact ⟨before, d ++ after, by simp, rfl⟩

theorem right (h : Placed P n (c ++ d)) : Placed P (n + c.length) d := by
  obtain ⟨before, after, rfl, rfl⟩ := h
  exact ⟨before ++ c, after, by simp, by simp⟩

theorem behind {k : Nat} (h : Placed P n (c ++ d)) (hk : k = n + c.length) : Placed P k d :=
  hk ▸ h.right

end Placed

/-! ## Labels -/

section
variable (name? : ι → Option String)

/-- The labels that stand in some code, in order. -/
def labelsOf (c : List ι) : List String := c.filterMap name?

def position? (P : List ι) (l : String) : Option Nat := P.findIdx? fun i => name? i == some l

@[simp] theorem labelsOf_append (c d : List ι) :
    labelsOf name? (c ++ d) = labelsOf name? c ++ labelsOf name? d := List.filterMap_append

@[simp] theorem labelsOf_nil : labelsOf name? [] = [] := rfl

theorem labelsOf_cons (i : ι) (c : List ι) :
    labelsOf name? (i :: c) = (name? i).toList ++ labelsOf name? c := by
  cases h : name? i <;> simp [labelsOf, h]

variable {name?}

/-- **A label that is used once is found where it stands.** -/
theorem position?_eq {l : String} (hi : name? i = some l) :
    ∀ {P : List ι} {n : Nat}, (labelsOf name? P).Nodup → P[n]? = some i →
      position? name? P l = some n
  | [], n, _, h => by simp at h
  | j :: P, 0, _, h => by
    obtain rfl : j = i := by simpa using h
    simp [position?, List.findIdx?_cons, hi]
  | j :: P, n + 1, hn, h => by
    have hP : P[n]? = some i := by simpa using h
    have hl : l ∈ labelsOf name? P := List.mem_filterMap.2 ⟨i, List.mem_of_getElem? hP, hi⟩
    rw [labelsOf_cons] at hn
    have hj : name? j ≠ some l := by
      intro hj
      rw [hj] at hn
      exact (List.nodup_cons.1 hn).1 hl
    have ih := position?_eq hi (List.Nodup.of_append_right hn) hP
    rw [position?] at ih ⊢
    rw [List.findIdx?_cons, ih]
    simp [hj]

end

/-! ## Runs -/

def Reaches {σ : Type} (step : σ → Option σ) : σ → σ → Prop :=
  Relation.ReflTransGen fun a b => step a = some b

namespace Reaches

variable {σ : Type} {step : σ → Option σ} {a b c : σ}

theorem refl (a : σ) : Reaches step a a := Relation.ReflTransGen.refl

theorem trans (h : Reaches step a b) (h' : Reaches step b c) : Reaches step a c :=
  Relation.ReflTransGen.trans h h'

theorem head (h : step a = some b) (h' : Reaches step b c) : Reaches step a c :=
  Relation.ReflTransGen.head h h'

theorem single (h : step a = some b) : Reaches step a b := head h (refl b)

end Reaches

end ExprLang
