/-
  What stands at the places of files.

  * `Files.find_eq`: it depends on the text of the file there, and on what lies below;
  * `Files.walk_concat`: the last step of a path is taken from a directory;
  * `Files.write_spec`, `Files.erase_spec`: writing and removing a file changes what stands at its
    own place, and nothing else.
-/
import ExprLang.Command.Build
import ExprLang.Proofs.Texts

namespace ExprLang

/-! ## Places -/

namespace Place

variable {p q r : Place}

theorem isUnder_iff : p.isUnder q = true ↔ p.above = q.above ∧ q.steps <+: p.steps := by
  simp [isUnder]

theorem isUnder_refl (p : Place) : p.isUnder p = true := isUnder_iff.2 ⟨rfl, List.prefix_rfl⟩

theorem isUnder_trans (h : p.isUnder q = true) (h' : q.isUnder r = true) : p.isUnder r = true := by
  rw [isUnder_iff] at *
  exact ⟨h.1.trans h'.1, h'.2.trans h.2⟩

/-- Of two places above a third one, one is above the other. -/
theorem isUnder_or_isUnder (hp : r.isUnder p = true) (hq : r.isUnder q = true) :
    p.isUnder q = true ∨ q.isUnder p = true := by
  simp only [isUnder_iff] at *
  rcases List.prefix_or_prefix_of_prefix hp.2 hq.2 with h | h
  · exact .inr ⟨hq.1.symm.trans hp.1, h⟩
  · exact .inl ⟨hp.1.symm.trans hq.1, h⟩

end Place

namespace Files

variable {files F : Files} {p q : Place}

/-! ## What stands at a place -/

def text? (files : Files) (p : Place) : Option String :=
  (List.find? (fun f => names p f.1) files).map Prod.snd

/-- The place is one where steps can start, or something lies there or below. -/
def Reaches (files : Files) (p : Place) : Prop :=
  p.steps = [] ∨ ∃ f ∈ files, (Place.ofPath f.1).isUnder p = true

theorem find_eq (files : Files) (p : Place) [Decidable (files.Reaches p)] :
    files.find p = (files.text? p).elim (if files.Reaches p then .directory else .missing)
      .file := by
  have hreaches : (p.steps.isEmpty || files.any fun f => (Place.ofPath f.1).isUnder p) = true ↔
      files.Reaches p := by
    simp [Reaches]
  rw [find, text?]
  cases List.find? (fun f => names p f.1) files with
  | some f => rfl
  | none => simp only [hreaches, Option.map_none, Option.elim_none]

open Classical in
theorem find_congr (htext : F.text? p = files.text? p)
    (hreaches : F.Reaches p ↔ files.Reaches p) : F.find p = files.find p := by
  rw [find_eq, find_eq, htext]
  simp only [hreaches]

theorem reaches_of_text? {text : String} (h : files.text? p = some text) : files.Reaches p := by
  obtain ⟨f, hf, -⟩ := Option.map_eq_some_iff.1 h
  have hname := List.find?_some hf
  simp only [names, Bool.and_eq_true, beq_iff_eq] at hname
  exact .inr ⟨f, List.mem_of_find?_eq_some hf, hname.2 ▸ Place.isUnder_refl _⟩

open Classical in
theorem find_eq_missing_iff : files.find p = .missing ↔ ¬ files.Reaches p := by
  rw [find_eq]
  cases ht : files.text? p with
  | some text => simp [reaches_of_text? ht]
  | none => simp

open Classical in
theorem text?_eq_some_iff {text : String} : files.text? p = some text ↔
    files.find p = .file text := by
  rw [find_eq]
  cases files.text? p with
  | some text => simp
  | none => by_cases h : files.Reaches p <;> simp [h]

open Classical in
theorem find_ne_blocked : files.find p ≠ .blocked := by
  rw [find_eq]
  cases files.text? p with
  | some text => simp
  | none => by_cases h : files.Reaches p <;> simp [h]

theorem Reaches.of_isUnder (h : files.Reaches p) (hpq : p.isUnder q = true) : files.Reaches q := by
  rcases h with h | ⟨f, hf, hfp⟩
  · obtain ⟨-, hsteps⟩ := Place.isUnder_iff.1 hpq
    rw [h] at hsteps
    exact .inl (List.prefix_nil.1 hsteps)
  · exact .inr ⟨f, hf, Place.isUnder_trans hfp hpq⟩

/-- Where nothing stands, nothing lies below. -/
theorem find_below (h : files.find q = .missing) (hpq : p.isUnder q = true) :
    files.find p = .missing := by
  rw [find_eq_missing_iff] at *
  exact fun hp => h (hp.of_isUnder hpq)

/-! ## Paths -/

/-- What a path leads to stands at its place. -/
theorem find_of_walk {e : Entry} : ∀ {steps : List (List Char)} {p : Place},
    files.walk p steps = e → e ≠ .missing → e ≠ .blocked →
      files.find (steps.foldl Place.step p) = e
  | [], _, h, _, _ => h
  | s :: steps, p, h, hmissing, hblocked => by
    rw [walk] at h
    cases hp : files.find p with
    | directory =>
      rw [hp] at h
      exact find_of_walk (p := p.step s) h hmissing hblocked
    | file _ | blocked =>
      rw [hp] at h
      exact absurd h.symm hblocked
    | missing =>
      rw [hp] at h
      exact absurd h.symm hmissing

theorem walk_concat (files : Files) (s : List Char) : ∀ (steps : List (List Char)) (p : Place),
    files.walk p steps = .directory →
      files.walk p (steps ++ [s]) = files.find ((steps.foldl Place.step p).step s)
  | [], p, h => by
    have hp : files.find p = .directory := h
    rw [List.nil_append, walk, hp]
    rfl
  | t :: steps, p, h => by
    rw [walk] at h
    rw [List.cons_append, walk]
    cases hp : files.find p with
    | directory =>
      rw [hp] at h
      exact walk_concat files s steps (p.step t) h
    | file _ => simp [hp] at h
    | missing => simp [hp] at h
    | blocked => simp [hp] at h

theorem step_of_missing {s : List Char} (hp : files.find p = .directory)
    (hs : files.find (p.step s) = .missing) : p.step s = { p with steps := p.steps ++ [s] } := by
  have hreaches : files.Reaches p := by
    by_contra h
    rw [← find_eq_missing_iff, hp] at h
    cases h
  rw [find_eq_missing_iff] at hs
  rw [Place.step] at hs ⊢
  split
  · rw [if_pos ‹_›] at hs
    exact absurd hreaches hs
  · rw [if_neg ‹_›] at hs
    split
    · -- the directory above is there as well
      rw [if_pos ‹_›] at hs
      split at hs
      · exact absurd (.inl ‹_›) hs
      · have habove : p.isUnder { p with steps := p.steps.dropLast } = true :=
          Place.isUnder_iff.2 ⟨rfl, List.dropLast_prefix p.steps⟩
        exact absurd (hreaches.of_isUnder habove) hs
    · rfl

/-! ## Writing -/

structure Wrote (files : Files) (q : Place) (text : String) (F : Files) : Prop where
  self : F.find q = .file text
  /-- No directory was there. -/
  was : files.find q ≠ .directory
  others : ∀ p, p ≠ q → F.find p = files.find p

theorem wrote_replace {old : String} (text : String) (h : files.find q = .file old) :
    files.Wrote q text (files.map fun f => if names q f.1 then (f.1, text) else f) := by
  have hname : ∀ f : String × String, (if names q f.1 then (f.1, text) else f).1 = f.1 := by
    intro f
    split <;> rfl
  have htext : ∀ p, text? (files.map fun f => if names q f.1 then (f.1, text) else f) p =
      (files.text? p).map fun old => if p = q then text else old := by
    intro p
    rw [text?, List.find?_map, text?, Option.map_map, Option.map_map]
    simp only [Function.comp_def, hname]
    cases hf : List.find? (fun f => names p f.1) files with
    | none => rfl
    | some f =>
      have hp := List.find?_some hf
      by_cases hpq : p = q
      · subst hpq
        simp [hp]
      · have hq : names q f.1 = false := by
          simp only [names, Bool.and_eq_true, beq_iff_eq] at hp
          simp [names, hp.2, hpq]
        simp [hq, hpq]
  have hreaches : ∀ p, Reaches (files.map fun f => if names q f.1 then (f.1, text) else f) p ↔
      files.Reaches p := by
    intro p
    simp only [Reaches, List.mem_map, exists_exists_and_eq_and, hname]
  refine ⟨?_, by simp [h], fun p hp => find_congr ?_ (hreaches p)⟩
  · rw [← text?_eq_some_iff] at h ⊢
    simp [htext, h]
  · simp [htext, hp]

theorem wrote_append {s : List Char} {path : String} (text : String)
    (hdirectory : files.find p = .directory) (hmissing : files.find (p.step s) = .missing)
    (hpath : Place.ofPath path = p.step s) (hend : path.endsWith "/" = false) :
    files.Wrote (p.step s) text (files ++ [(path, text)]) := by
  have hstep := step_of_missing hdirectory hmissing
  have htext : ∀ r, text? (files ++ [(path, text)]) r =
      (files.text? r).or (if r = p.step s then some text else none) := by
    intro r
    rw [text?, List.find?_append, text?]
    cases List.find? (fun f => names r f.1) files with
    | some f => rfl
    | none =>
      by_cases hr : r = p.step s
      · simp [names, hpath, hend, hr]
      · simp [names, hpath, hend, hr, Ne.symm hr]
  refine ⟨?_, by simp [hmissing], fun r hr => find_congr ?_ ⟨?_, ?_⟩⟩
  · have hnone : files.text? (p.step s) = none := by
      cases ht : files.text? (p.step s) with
      | none => rfl
      | some old =>
        rw [text?_eq_some_iff, hmissing] at ht
        cases ht
    rw [← text?_eq_some_iff, htext, hnone]
    simp
  · simp [htext, hr]
  · rintro (h | ⟨f, hf, hfr⟩)
    · exact .inl h
    rcases List.mem_append.1 hf with hf | hf
    · exact .inr ⟨f, hf, hfr⟩
    -- a place above the new file is the directory or above it
    cases List.mem_singleton.1 hf
    have hreaches : files.Reaches p := by
      by_contra h
      rw [← find_eq_missing_iff, hdirectory] at h
      cases h
    refine hreaches.of_isUnder (Place.isUnder_iff.2 ?_)
    rw [Place.isUnder_iff, hpath, hstep] at hfr
    refine ⟨hfr.1, ?_⟩
    rcases List.prefix_concat_iff.1 hfr.2 with h | h
    · refine absurd ?_ hr
      rw [hstep]
      cases r
      simp_all
    · exact h
  · rintro (h | ⟨f, hf, hfr⟩)
    · exact .inl h
    · exact .inr ⟨f, List.mem_append_left _ hf, hfr⟩

theorem write_spec {path text : String} (h : files.write path text = .ok F) :
    files.Wrote (.ofPath path) text F := by
  have hparts := List.dropLast_append_getLast (Text.splitAt_ne_nil '/' path.toList)
  rw [write] at h
  cases hentry : files.entry path with
  | directory | blocked =>
    rw [hentry] at h
    cases h
  | file old =>
    rw [hentry] at h
    cases h
    rw [entry] at hentry
    split at hentry
    · cases hentry
    · exact wrote_replace text (find_of_walk hentry nofun nofun)
  | missing =>
    rw [hentry] at h
    dsimp only at h
    split at h
    · rename_i hwalk
      split at h
      · cases h
      split at h
      · cases h
      rename_i hempty hend
      cases h
      have hpath : Place.ofPath path = ((Text.splitAt '/' path.toList).dropLast.foldl Place.step
          (.start path)).step ((Text.splitAt '/' path.toList).getLast
            (Text.splitAt_ne_nil '/' path.toList)) := by
        rw [Place.ofPath]
        conv_lhs => rw [← hparts]
        rw [List.foldl_append]
        rfl
      rw [entry, if_neg hempty, ← hparts, walk_concat files _ _ _ hwalk] at hentry
      rw [hpath]
      exact wrote_append text (find_of_walk hwalk nofun nofun) hentry hpath (by simpa using hend)
    · cases h

/-! ## Removing -/

theorem erase_spec {path : String} {s : List Char} (h : (Place.ofPath path).steps = [s]) (p : Place) :
    (files.erase path).find p =
      if p.isUnder (.ofPath path) then .missing else files.find p := by
  have hmem : ∀ f, f ∈ files.erase path ↔
      f ∈ files ∧ (Place.ofPath f.1).isUnder (.ofPath path) = false := by
    simp [erase]
  split
  · rename_i hp
    rw [find_eq_missing_iff]
    rintro (hnil | ⟨f, hf, hfp⟩)
    · have := (Place.isUnder_iff.1 hp).2
      simp [h, hnil] at this
    · have hfq := ((hmem f).1 hf).2
      rw [Place.isUnder_trans hfp hp] at hfq
      cases hfq
  · rename_i hp
    refine find_congr ?_ ⟨?_, ?_⟩
    · rw [text?, erase, List.find?_filter, text?]
      congr 2
      funext f
      cases hname : names p f.1 with
      | false => simp
      | true =>
        simp only [names, Bool.and_eq_true, beq_iff_eq] at hname
        simp [hname.2, hp]
    · rintro (hnil | ⟨f, hf, hfp⟩)
      · exact .inl hnil
      · exact .inr ⟨f, ((hmem f).1 hf).1, hfp⟩
    · rintro (hnil | ⟨f, hf, hfp⟩)
      · exact .inl hnil
      · cases hfq : (Place.ofPath f.1).isUnder (.ofPath path) with
        | false => exact .inr ⟨f, (hmem f).2 ⟨hf, hfq⟩, hfp⟩
        | true =>
          rcases Place.isUnder_or_isUnder hfp hfq with h' | h'
          · exact absurd h' hp
          · rw [Place.isUnder_iff, h] at h'
            rcases List.prefix_cons_iff.1 h'.2 with hnil | ⟨rest, hsteps, hrest⟩
            · exact .inl hnil
            · rw [List.prefix_nil.1 hrest] at hsteps
              have hpre : (Place.ofPath path).steps <+: p.steps :=
                ⟨[], by rw [List.append_nil, h, hsteps]⟩
              exact absurd (Place.isUnder_iff.2 ⟨h'.1.symm, hpre⟩) hp

end Files

end ExprLang
