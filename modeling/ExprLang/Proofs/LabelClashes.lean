/-
  When labels clash.

  A label is a name with a number directly behind it.  So the eleventh label from `a` is also the
  first one from `a1`, and labels are told apart only as long as no name is another one with a
  number behind it, or the other one is not used too often.

  * `Labels.numbered` are the names with their numbers, which are all different;
  * `label_eq_longer`: when two labels from names of different lengths are equal;
  * `labels_distinct_iff`: when all labels that are made in some calls are different.
-/
import ExprLang.Proofs.Generator
import ExprLang.Proofs.Numerals

namespace ExprLang

namespace Labels

/-! ## Calls -/

def freshCalls (ls : Labels) : List (List String) → List (List String) × Labels
  | [] => ([], ls)
  | names :: calls =>
    let made := ls.freshAll names
    let rest := made.2.freshCalls calls
    (made.1 :: rest.1, rest.2)

theorem freshAll_append (ls : Labels) (names more : List String) :
    ls.freshAll (names ++ more) =
      ((ls.freshAll names).1 ++ ((ls.freshAll names).2.freshAll more).1,
        ((ls.freshAll names).2.freshAll more).2) := by
  induction names generalizing ls with
  | nil => rfl
  | cons name names ih =>
    show (_ :: ((ls.bump name).freshAll (names ++ more)).1,
      ((ls.bump name).freshAll (names ++ more)).2) = _
    rw [ih]
    rfl

theorem flatten_freshCalls (ls : Labels) (calls : List (List String)) :
    (ls.freshCalls calls).1.flatten = (ls.freshAll calls.flatten).1 := by
  induction calls generalizing ls with
  | nil => rfl
  | cons names calls ih =>
    rw [freshCalls, List.flatten_cons, List.flatten_cons, freshAll_append, ih]

/-! ## Names with numbers -/

def numbered (ls : Labels) : List String → List (String × Nat)
  | [] => []
  | name :: names => (name, ls.count name) :: (ls.bump name).numbered names

theorem freshAll_eq_map (ls : Labels) (names : List String) :
    (ls.freshAll names).1 = (ls.numbered names).map fun p => p.1 ++ toString p.2 := by
  induction names generalizing ls with
  | nil => rfl
  | cons name names ih =>
    show _ :: ((ls.bump name).freshAll names).1 = _
    rw [ih]
    rfl

theorem mem_numbered {ls : Labels} {names : List String} {x : String} {m : Nat} :
    (x, m) ∈ ls.numbered names ↔ ls.count x ≤ m ∧ m < ls.count x + names.count x := by
  induction names generalizing ls with
  | nil => simp [numbered]
  | cons name names ih =>
    rw [numbered, List.mem_cons, ih, Prod.mk.injEq]
    by_cases hx : x = name
    · subst hx
      simp only [count_bump_self, List.count_cons_self, true_and]
      omega
    · simp only [hx, count_bump_ne ls hx, List.count_cons_of_ne (Ne.symm hx), false_and, false_or]

theorem nodup_numbered (ls : Labels) (names : List String) : (ls.numbered names).Nodup := by
  induction names generalizing ls with
  | nil => exact List.nodup_nil
  | cons name names ih =>
    refine List.nodup_cons.2 ⟨fun hmem => ?_, ih _⟩
    have hle := (mem_numbered.1 hmem).1
    rw [count_bump_self] at hle
    omega

end Labels

/-! ## Equal labels -/

/-- The number of the longer name is part of the number of the shorter one. -/
theorem label_eq_longer {x y : String} {m n : Nat} (h : x ++ toString m = y ++ toString n)
    (hne : x ≠ y) (hle : x.length ≤ y.length) :
    ∃ k, 0 < k ∧ y = x ++ toString k ∧ 10 * k ≤ m := by
  have hlists := congrArg String.toList h
  rw [toList_label, toList_label, List.append_eq_append_iff] at hlists
  rcases hlists with ⟨u, hy, hm⟩ | ⟨u, hx, hn⟩
  · have hu : u ≠ [] := by
      rintro rfl
      rw [List.append_nil] at hy
      exact hne (String.toList_inj.1 hy.symm)
    obtain ⟨hpos, hbound⟩ := front_bounds hm hu Nat.toDigits_ne_nil
    refine ⟨_, hpos, String.toList_inj.1 ?_, hbound⟩
    rw [toList_label, hy, ← eq_toDigits_of_append hm hu]
  · have hlength := congrArg List.length hx
    rw [List.length_append, String.length_toList, String.length_toList] at hlength
    have hu : u = [] := List.length_eq_zero_iff.1 (by omega)
    rw [hu, List.append_nil] at hx
    exact absurd (String.toList_inj.1 hx) hne

theorem label_of_numbered (x : String) {k : Nat} (hk : 0 < k) :
    x ++ toString (10 * k) = (x ++ toString k) ++ toString 0 := by
  have hdigits := Nat.toDigits_append_toDigits (b := 10) (d := 0) (by decide) hk (by decide)
  apply String.toList_inj.1
  rw [toList_label, toList_label, toList_label, List.append_assoc, hdigits, Nat.add_zero]

/-- **Labels are different exactly if no name is used too often.**  All labels of all calls are
    different, unless a name with a number `k` behind it is used as a name, too, and the name itself
    more than `10 * k` times. -/
theorem labels_distinct_iff (calls : List (List String)) :
    (Labels.empty.freshCalls calls).1.flatten.Nodup ↔
      ∀ name k, 0 < k → name ++ toString k ∈ calls.flatten →
        calls.flatten.count name ≤ 10 * k := by
  rw [Labels.flatten_freshCalls, Labels.freshAll_eq_map,
    List.nodup_map_iff_inj_on (Labels.nodup_numbered _ _)]
  generalize calls.flatten = names
  have hmem : ∀ {x : String} {m : Nat},
      (x, m) ∈ Labels.empty.numbered names ↔ m < names.count x := fun {x m} => by
    have hzero : Labels.empty.count x = 0 := rfl
    rw [Labels.mem_numbered, hzero]
    omega
  constructor
  · intro hinj name k hk hused
    by_contra hmany
    have hfirst : (name ++ toString k, 0) ∈ Labels.empty.numbered names :=
      hmem.2 (List.count_pos_iff.2 hused)
    have hsame := hinj (name, 10 * k) (hmem.2 (by omega)) _ hfirst (label_of_numbered name hk)
    have hnumber : 10 * k = 0 := congrArg Prod.snd hsame
    omega
  · rintro hcount ⟨x, m⟩ hx ⟨y, n⟩ hy heq
    by_contra hne
    have hxy : x ≠ y := by
      rintro rfl
      have hlists := congrArg String.toList heq
      rw [toList_label, toList_label] at hlists
      exact hne (congrArg (Prod.mk x) (toDigits_inj (List.append_cancel_left hlists)))
    -- The longer one of the two names is the shorter one with a number behind it.
    rcases le_total x.length y.length with hle | hle
    · obtain ⟨k, hk, rfl, hm⟩ := label_eq_longer heq hxy hle
      have hused := List.count_pos_iff.1 (Nat.zero_lt_of_lt (hmem.1 hy))
      exact absurd (hcount x k hk hused) (not_le.2 (hm.trans_lt (hmem.1 hx)))
    · obtain ⟨k, hk, rfl, hn⟩ := label_eq_longer heq.symm hxy.symm hle
      have hused := List.count_pos_iff.1 (Nat.zero_lt_of_lt (hmem.1 hx))
      exact absurd (hcount y k hk hused) (not_le.2 (hn.trans_lt (hmem.1 hy)))

/-- Eleven labels from `a` and one from `a1` are not all different: the last two are `a10`. -/
theorem labels_distinct_iff_clash :
    ¬ (Labels.empty.freshCalls [List.replicate 11 "a", ["a1"]]).1.flatten.Nodup := by
  intro hnodup
  have hcount := (labels_distinct_iff _).1 hnodup "a" 1 (by decide) (by decide)
  exact absurd hcount (by decide)

end ExprLang
