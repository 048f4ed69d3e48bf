/-
  Decimal numerals.

  A numeral has no zero in front, unless it is the numeral of zero.

  * `toDigits_append`: behind a numeral other than zero, another one makes a longer numeral;
  * `eq_toDigits_of_append`: the front part of a numeral is a numeral;
  * `toDigits_cons_zero`: a numeral that starts with a zero is the one of zero.
-/
import Mathlib

namespace ExprLang

variable {k m n : Nat} {u v : List Char}

theorem toDigits_inj (h : Nat.toDigits 10 m = Nat.toDigits 10 n) : m = n := by
  rw [← Nat.ofDigitChars_ten_toDigits (n := m), h, Nat.ofDigitChars_ten_toDigits]

/-- **Two numerals in a row are one**, unless the first one is zero. -/
theorem toDigits_append (hk : 0 < k) (n : Nat) :
    Nat.toDigits 10 k ++ Nat.toDigits 10 n =
      Nat.toDigits 10 (k * 10 ^ (Nat.toDigits 10 n).length + n) := by
  induction n using Nat.strong_induction_on with
  | _ n ih =>
  by_cases hn : n < 10
  · rw [Nat.toDigits_append_toDigits (by decide) hk hn, Nat.toDigits_of_lt_base hn,
      List.length_singleton, Nat.pow_one, Nat.mul_comm]
  · have hfront := ih (n / 10) (by omega)
    have hlast : n % 10 < 10 := Nat.mod_lt n (by decide)
    have hpos : 0 < k * 10 ^ (Nat.toDigits 10 (n / 10)).length + n / 10 :=
      Nat.add_pos_left (Nat.mul_pos hk (Nat.pow_pos (by decide))) _
    have hsplit : Nat.toDigits 10 n = Nat.toDigits 10 (n / 10) ++ Nat.toDigits 10 (n % 10) := by
      rw [Nat.toDigits_of_base_le (by decide) (by omega), Nat.toDigits_of_lt_base hlast]
    have hlength : (Nat.toDigits 10 n).length = (Nat.toDigits 10 (n / 10)).length + 1 := by
      rw [hsplit, List.length_append, Nat.toDigits_of_lt_base hlast, List.length_singleton]
    rw [hlength, hsplit, ← List.append_assoc, hfront,
      Nat.toDigits_append_toDigits (by decide) hpos hlast, Nat.pow_succ, ← Nat.mul_assoc]
    congr 1
    omega

/-- The front part of a numeral is the numeral of a quotient. -/
theorem eq_toDigits_of_append (h : Nat.toDigits 10 m = u ++ v) (hu : u ≠ []) :
    u = Nat.toDigits 10 (m / 10 ^ v.length) := by
  induction v using List.reverseRecOn generalizing m with
  | nil => simpa using h.symm
  | append_singleton v c ih =>
    have hm : 10 ≤ m := by
      by_contra hlt
      have hlen := congrArg List.length h
      have hpos := List.length_pos_iff.2 hu
      rw [Nat.toDigits_of_lt_base (by omega)] at hlen
      simp only [List.length_append, List.length_singleton] at hlen
      omega
    rw [Nat.toDigits_of_base_le (by decide) hm, ← List.append_assoc] at h
    rw [ih (List.append_inj_left' h rfl), List.length_append, List.length_singleton, Nat.pow_add,
      Nat.pow_one, Nat.mul_comm, Nat.div_div_eq_div_mul]

/-- The number of the front part is not zero, and ten times as much is at most the whole. -/
theorem front_bounds (h : Nat.toDigits 10 m = u ++ v) (hu : u ≠ []) (hv : v ≠ []) :
    0 < m / 10 ^ v.length ∧ 10 * (m / 10 ^ v.length) ≤ m := by
  have hpos := List.length_pos_iff.2 hv
  constructor
  · refine Nat.div_pos (not_lt.1 fun hlt => ?_) (Nat.pow_pos (by decide))
    have hlen := (Nat.length_toDigits_le_iff (by decide) hpos).2 hlt
    have hlen' := List.length_pos_iff.2 hu
    rw [h, List.length_append] at hlen
    omega
  · obtain ⟨j, hj⟩ := Nat.exists_eq_succ_of_ne_zero hpos.ne'
    rw [hj, Nat.succ_eq_add_one, Nat.pow_succ, ← Nat.div_div_eq_div_mul]
    exact (Nat.mul_div_le _ _).trans (Nat.div_le_self _ _)

theorem toDigits_cons_zero (h : Nat.toDigits 10 m = '0' :: v) : m = 0 ∧ v = [] := by
  have hzero : Nat.toDigits 10 0 = ['0'] := rfl
  have hfront := eq_toDigits_of_append (u := ['0']) h (by simp)
  by_cases hv : v = []
  · subst hv
    exact ⟨toDigits_inj (h.trans hzero.symm), rfl⟩
  · have hpos := (front_bounds (u := ['0']) h (by simp) hv).1
    rw [← toDigits_inj (hzero.trans hfront)] at hpos
    exact absurd hpos (lt_irrefl 0)

end ExprLang
