/-
  Texts in parts.

  * `Text.cut?` cuts a text at the first of its separators;
  * `Text.splitAt` gives the parts between all of them: none has a separator in it
    (`not_mem_of_mem_splitAt`), and parts that are joined are split again (`splitAt_intercalate`).
-/
import ExprLang.Text.Blank
import Mathlib.Data.List.Basic

namespace ExprLang.Text

/-! ## The first separator -/

theorem cut?_of_not_mem {sep : Char} : ∀ {cs : List Char}, sep ∉ cs → cut? sep cs = none
  | [], _ => rfl
  | c :: cs, h => by
    rw [List.mem_cons, not_or] at h
    rw [cut?, if_neg (Ne.symm h.1), cut?_of_not_mem h.2]
    rfl

theorem cut?_append {sep : Char} (ds : List Char) : ∀ {cs : List Char}, sep ∉ cs →
    cut? sep (cs ++ sep :: ds) = some (cs, ds)
  | [], _ => by rw [List.nil_append, cut?, if_pos rfl]
  | c :: cs, h => by
    rw [List.mem_cons, not_or] at h
    rw [List.cons_append, cut?, if_neg (Ne.symm h.1), cut?_append ds h.2]
    rfl

theorem cut?_cases (sep : Char) (cs : List Char) : sep ∉ cs ∧ cut? sep cs = none ∨
    ∃ before after, sep ∉ before ∧ cs = before ++ sep :: after ∧
      cut? sep cs = some (before, after) := by
  by_cases h : sep ∈ cs
  · obtain ⟨before, after, rfl, hb⟩ := List.eq_append_cons_of_mem h
    exact .inr ⟨before, after, hb, rfl, cut?_append after hb⟩
  · exact .inl ⟨h, cut?_of_not_mem h⟩

/-! ## All separators -/

theorem splitAt_of_not_mem {sep : Char} : ∀ {cs : List Char}, sep ∉ cs → splitAt sep cs = [cs]
  | [], _ => rfl
  | c :: cs, h => by
    rw [List.mem_cons, not_or] at h
    rw [splitAt, splitAt_of_not_mem h.2]
    exact if_neg (Ne.symm h.1)

theorem splitAt_ne_nil (sep : Char) : ∀ cs : List Char, splitAt sep cs ≠ []
  | [] => by simp [splitAt]
  | c :: cs => by
    rw [splitAt]
    split
    · simp
    · split <;> simp

theorem splitAt_cons (sep c : Char) (cs : List Char) : ∃ part parts,
    splitAt sep cs = part :: parts ∧ splitAt sep (c :: cs) =
      if c = sep then [] :: part :: parts else (c :: part) :: parts := by
  obtain ⟨part, parts, h⟩ := List.exists_cons_of_ne_nil (splitAt_ne_nil sep cs)
  exact ⟨part, parts, h, by rw [splitAt, h]⟩

theorem not_mem_of_mem_splitAt {sep : Char} : ∀ {cs part : List Char},
    part ∈ splitAt sep cs → sep ∉ part
  | [], part, h => by simp_all [splitAt]
  | c :: cs, part, h => by
    obtain ⟨q, qs, hs, hc⟩ := splitAt_cons sep c cs
    have ih : ∀ p ∈ q :: qs, sep ∉ p := fun p hp => not_mem_of_mem_splitAt (hs ▸ hp)
    rw [hc] at h
    split at h
    · rcases List.mem_cons.1 h with rfl | h
      · simp
      · exact ih part h
    · rcases List.mem_cons.1 h with rfl | h
      · simpa [Ne.symm ‹c ≠ sep›] using ih q (by simp)
      · exact ih part (List.mem_cons_of_mem q h)

theorem splitAt_append {sep : Char} (ds : List Char) : ∀ {cs : List Char}, sep ∉ cs →
    splitAt sep (cs ++ sep :: ds) = cs :: splitAt sep ds
  | [], _ => by
    obtain ⟨part, parts, hds, hcons⟩ := splitAt_cons sep sep ds
    rw [List.nil_append, hcons, if_pos rfl, hds]
  | c :: cs, h => by
    rw [List.mem_cons, not_or] at h
    rw [List.cons_append, splitAt, splitAt_append ds h.2]
    exact if_neg (Ne.symm h.1)

theorem splitAt_intercalate {sep : Char} : ∀ {parts : List (List Char)}, parts ≠ [] →
    (∀ p ∈ parts, sep ∉ p) → splitAt sep (List.intercalate [sep] parts) = parts
  | [p], _, h => by
    rw [List.intercalate_singleton, splitAt_of_not_mem (h p (by simp))]
  | p :: q :: ps, _, h => by
    obtain ⟨hp, hps⟩ := List.forall_mem_cons.1 h
    rw [List.intercalate_cons_cons, List.append_assoc, List.singleton_append,
      splitAt_append _ hp, splitAt_intercalate (by simp) hps]

theorem mem_of_mem_splitAt {sep : Char} : ∀ {cs part : List Char} {c : Char},
    part ∈ splitAt sep cs → c ∈ part → c ∈ cs
  | [], part, c, h, hc => by simp_all [splitAt]
  | d :: cs, part, c, h, hc => by
    obtain ⟨q, qs, hs, hcons⟩ := splitAt_cons sep d cs
    have ih : ∀ p ∈ q :: qs, c ∈ p → c ∈ cs := fun p hp => mem_of_mem_splitAt (hs ▸ hp)
    rw [hcons] at h
    split at h
    · rcases List.mem_cons.1 h with rfl | h
      · cases hc
      · exact .tail d (ih part h hc)
    · rcases List.mem_cons.1 h with rfl | h
      · rcases List.mem_cons.1 hc with rfl | hc
        · exact .head cs
        · exact .tail d (ih q (by simp) hc)
      · exact .tail d (ih part (List.mem_cons_of_mem q h) hc)

/-- What stands before a text without separators is part of the first part. -/
theorem splitAt_append_left {sep : Char} (cs : List Char) : ∀ {bs : List Char}, sep ∉ bs →
    ∃ part parts, splitAt sep cs = part :: parts ∧ splitAt sep (bs ++ cs) = (bs ++ part) :: parts
  | [], _ => by
    obtain ⟨part, parts, h⟩ := List.exists_cons_of_ne_nil (splitAt_ne_nil sep cs)
    exact ⟨part, parts, h, h⟩
  | b :: bs, hb => by
    rw [List.mem_cons, not_or] at hb
    obtain ⟨part, parts, hcs, h⟩ := splitAt_append_left cs hb.2
    refine ⟨part, parts, hcs, ?_⟩
    rw [List.cons_append, splitAt, h]
    exact if_neg (Ne.symm hb.1)

theorem splitAt_append_right {sep : Char} {es : List Char} (he : sep ∉ es) : ∀ cs : List Char,
    ∃ parts part, splitAt sep cs = parts ++ [part] ∧ splitAt sep (cs ++ es) = parts ++ [part ++ es]
  | [] => ⟨[], [], rfl, splitAt_of_not_mem he⟩
  | c :: cs => by
    obtain ⟨parts, part, hcs, h⟩ := splitAt_append_right he cs
    rw [List.cons_append, splitAt, splitAt, hcs, h]
    cases parts with
    | nil =>
      by_cases hc : c = sep
      · exact ⟨[[]], part, by simp [hc], by simp [hc]⟩
      · exact ⟨[], c :: part, by simp [hc], by simp [hc]⟩
    | cons p ps =>
      by_cases hc : c = sep
      · exact ⟨[] :: p :: ps, part, by simp [hc], by simp [hc]⟩
      · exact ⟨(c :: p) :: ps, part, by simp [hc], by simp [hc]⟩

/-! ## Line ends -/

/-- Without a carriage return, line ends stay as they are. -/
theorem unixLines_eq_self : ∀ {cs : List Char}, '\r' ∉ cs → unixLines cs = cs
  | [], _ => rfl
  | c :: cs, h => by
    rw [List.mem_cons, not_or] at h
    rw [unixLines, unixLines_eq_self h.2]
    · rintro _ rfl
      exact absurd rfl h.1
    · rintro rfl
      exact absurd rfl h.1

end ExprLang.Text
