/-
  What generators do.

  * `Gen.Gives` says that a generator ends well: what it gives, and the state it leaves.  Every way
    to build a generator has an equivalence for it, so that proofs take generators apart without
    unfolding them;
  * `Fresh s t ls` says that the labels `ls` were made between the states `s` and `t`.  Labels made
    one after the other are all different, because their stems have no digits.
-/
import ExprLang.Code.Gen
import Mathlib.Data.List.Nodup
import Mathlib.Order.Nat

namespace ExprLang

variable {α β : Type} {s t u : GenState}

/-- Started in `s`, the generator gives `a` and leaves `t`. -/
def Gen.Gives (g : Gen α) (s : GenState) (a : α) (t : GenState) : Prop :=
  (g.run.run s : Except GenFault α × GenState) = (.ok a, t)

/-! ## Taking generators apart -/

namespace Gen

theorem gives_pure {a b : α} : Gives (pure a) s b t ↔ a = b ∧ s = t := by
  show ((Except.ok a, s) : Except GenFault α × GenState) = (.ok b, t) ↔ _
  simp

theorem gives_throw {f : GenFault} {b : α} : ¬ Gives (throw f : Gen α) s b t := by
  intro h
  have h' : ((Except.error f, s) : Except GenFault α × GenState) = (.ok b, t) := h
  simp at h'

theorem run_bind (g : Gen α) (k : α → Gen β) (s : GenState) :
    (g >>= k).run.run s = match g.run.run s with
      | (.ok a, t) => (k a).run.run t
      | (.error f, t) => (.error f, t) := by
  show (ExceptT.bindCont k <$> g.run >>= id).run s = _
  rcases hg : g.run.run s with ⟨_ | a, t⟩ <;> simp [StateT.run_bind, hg] <;> rfl

theorem gives_bind {g : Gen α} {k : α → Gen β} {b : β} :
    Gives (g >>= k) s b u ↔ ∃ a t, g.Gives s a t ∧ (k a).Gives t b u := by
  unfold Gives
  rw [run_bind]
  rcases hg : g.run.run s with ⟨f | a, t⟩
  · constructor
    · intro h; cases h
    · rintro ⟨a', t', h, -⟩; cases h
  · constructor
    · exact fun h => ⟨a, t, rfl, h⟩
    · rintro ⟨a', t', h, hk⟩; cases h; exact hk

theorem gives_get {a : GenState} : Gives (get : Gen GenState) s a t ↔ s = a ∧ s = t := by
  show ((Except.ok s, s) : Except GenFault GenState × GenState) = (.ok a, t) ↔ _
  simp

theorem gives_modify {f : GenState → GenState} {a : Unit} :
    Gives (modify f : Gen Unit) s a t ↔ f s = t := by
  show ((Except.ok (), f s) : Except GenFault Unit × GenState) = (.ok a, t) ↔ _
  simp

theorem gives_lift {x : Except GenFault α} {a : α} :
    Gives (liftM x : Gen α) s a t ↔ x = .ok a ∧ s = t := by
  show ((x, s) : Except GenFault α × GenState) = (.ok a, t) ↔ _
  simp

end Gen

theorem slot?_gives {scope : Slots} {x : String} {r : Option Slot} :
    (slot? scope x).Gives s r t ↔ (scope.lookup x).or (s.globals.lookup x) = r ∧ s = t := by
  simp only [slot?, Gen.gives_bind, Gen.gives_get, Gen.gives_pure]
  constructor
  · rintro ⟨_, _, ⟨rfl, rfl⟩, rfl, rfl⟩; exact ⟨rfl, rfl⟩
  · rintro ⟨rfl, rfl⟩; exact ⟨_, _, ⟨rfl, rfl⟩, rfl, rfl⟩

/-! ## Counting labels -/

theorem lookup_filter_ne {γ : Type} {x y : String} (h : y ≠ x) :
    ∀ l : List (String × γ), (l.filter (·.1 ≠ x)).lookup y = l.lookup y
  | [] => rfl
  | (z, c) :: l => by
    by_cases hz : z = x
    · have hy : (y == z) = false := by simpa [hz] using h
      rw [List.filter_cons_of_neg (by simp [hz]), List.lookup_cons, hy, lookup_filter_ne h l]
    · rw [List.filter_cons_of_pos (by simp [hz]), List.lookup_cons, List.lookup_cons,
        lookup_filter_ne h l]

namespace Labels

theorem count_bump_self (ls : Labels) (x : String) : (ls.bump x).count x = ls.count x + 1 := by
  simp [bump, count]

theorem count_bump_ne (ls : Labels) {x y : String} (h : y ≠ x) :
    (ls.bump x).count y = ls.count y := by
  have hy : (y == x) = false := by simpa using h
  show (List.lookup y (_ :: _)).getD 0 = _
  rw [List.lookup_cons, hy, lookup_filter_ne h]; rfl

theorem count_le_bump (ls : Labels) (x y : String) : ls.count y ≤ (ls.bump x).count y := by
  by_cases h : y = x
  · subst h; rw [count_bump_self]; omega
  · exact (count_bump_ne ls h).ge

end Labels

/-- A name whose characters are all from `A` to `z`: letters, but no digits. -/
def Stem (name : String) : Prop := ∀ c ∈ name.toList, 'A'.toNat ≤ c.toNat ∧ c.toNat ≤ 'z'.toNat

theorem Stem.isDigit_eq_false {name : String} (h : Stem name) :
    ∀ c ∈ name.toList, c.isDigit = false := by
  intro c hc
  obtain ⟨hlow, -⟩ := h c hc
  by_contra hdigit
  simp only [Char.isDigit, Bool.not_eq_false, Bool.and_eq_true, decide_eq_true_eq] at hdigit
  have hle : c.toNat ≤ '9'.toNat := UInt32.le_iff_toNat_le.1 hdigit.2
  exact absurd (hlow.trans hle) (by decide)

theorem toList_label (name : String) (n : Nat) :
    (name ++ toString n).toList = name.toList ++ Nat.toDigits 10 n := by
  rw [String.toList_append]; exact congrArg _ Nat.toList_repr

theorem digits_of_label {name : String} (h : Stem name) (n : Nat) :
    ((name ++ toString n).toList.dropWhile fun c => !c.isDigit) = Nat.toDigits 10 n := by
  rw [toList_label, List.dropWhile_append_of_pos fun c hc => by
    simp [h.isDigit_eq_false c hc]]
  cases hl : Nat.toDigits 10 n with
  | nil => rfl
  | cons c cs =>
    have hc : c ∈ Nat.toDigits 10 n := by simp [hl]
    have hd := Nat.isDigit_of_mem_toDigits (by decide) (by decide) hc
    rw [List.dropWhile_cons_of_neg (by simp [hd])]

theorem label_inj {x y : String} (hx : Stem x) (hy : Stem y) {m n : Nat}
    (h : x ++ toString m = y ++ toString n) : x = y ∧ m = n := by
  have hd : Nat.toDigits 10 m = Nat.toDigits 10 n := by
    rw [← digits_of_label hx m, h, digits_of_label hy n]
  have hmn : m = n := by
    rw [← Nat.ofDigitChars_ten_toDigits (n := m), hd, Nat.ofDigitChars_ten_toDigits]
  subst hmn
  have hl := congrArg String.toList h
  rw [toList_label, toList_label] at hl
  exact ⟨String.toList_inj.1 (List.append_cancel_right hl), rfl⟩

/-! ## Fresh labels -/

/-- The label `l` was made between the counters `a` and `b`. -/
def Labels.Made (a b : Labels) (l : String) : Prop :=
  ∃ name n, Stem name ∧ l = name ++ toString n ∧ a.count name ≤ n ∧ n < b.count name

/-- The labels `ls` are different ones that were made between `s` and `t`. -/
structure Fresh (s t : GenState) (ls : List String) : Prop where
  grows : ∀ name, s.labels.count name ≤ t.labels.count name
  made : ∀ l ∈ ls, s.labels.Made t.labels l
  nodup : ls.Nodup

namespace Fresh

variable {ls ms : List String}

theorem refl (s : GenState) : Fresh s s [] := ⟨fun _ => le_rfl, by simp, .nil⟩

theorem of_eq (h : s.labels = t.labels) : Fresh s t [] :=
  ⟨fun _ => by rw [h], by simp, .nil⟩

theorem perm (h : Fresh s t ls) (hp : ls.Perm ms) : Fresh s t ms :=
  ⟨h.grows, fun l hl => h.made l (hp.mem_iff.2 hl), hp.nodup_iff.1 h.nodup⟩

/-- What is made later differs from what was made before. -/
theorem trans (h : Fresh s t ls) (h' : Fresh t u ms) : Fresh s u (ls ++ ms) := by
  refine ⟨fun n => (h.grows n).trans (h'.grows n), fun l hl => ?_,
    List.nodup_append'.2 ⟨h.nodup, h'.nodup, fun l hl hl' => ?_⟩⟩
  · rcases List.mem_append.1 hl with hl | hl
    · obtain ⟨name, n, hs, he, h1, h2⟩ := h.made l hl
      exact ⟨name, n, hs, he, h1, h2.trans_le (h'.grows name)⟩
    · obtain ⟨name, n, hs, he, h1, h2⟩ := h'.made l hl
      exact ⟨name, n, hs, he, (h.grows name).trans h1, h2⟩
  · obtain ⟨x, m, hx, rfl, -, hm⟩ := h.made l hl
    obtain ⟨y, n, hy, he, hn, -⟩ := h'.made _ hl'
    obtain ⟨rfl, rfl⟩ := label_inj hx hy he
    exact absurd hm (not_lt.2 hn)

end Fresh

theorem freshLabel_gives {name l : String} :
    (freshLabel name).Gives s l t ↔
      name ++ toString (s.labels.count name) = l ∧ { s with labels := s.labels.bump name } = t := by
  show ((Except.ok (name ++ toString (s.labels.count name)),
    { s with labels := s.labels.bump name }) : Except GenFault String × GenState) = (.ok l, t) ↔ _
  simp

theorem freshLabel_fresh {name l : String} (hs : Stem name) (h : (freshLabel name).Gives s l t) :
    Fresh s t [l] := by
  obtain ⟨rfl, rfl⟩ := freshLabel_gives.1 h
  refine ⟨s.labels.count_le_bump name, fun l hl => ?_, List.nodup_singleton _⟩
  rw [List.mem_singleton] at hl; subst hl
  exact ⟨name, _, hs, rfl, le_rfl, by simp [Labels.count_bump_self]⟩

end ExprLang
