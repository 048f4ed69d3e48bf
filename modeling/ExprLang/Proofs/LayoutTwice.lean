/-
  Laying out a text twice.

  Once a text is laid out, laying it out again should leave it alone.  There are two kinds of lines
  that change a second time.  A mnemonic that fills its column runs into the operand behind it, and
  both are one word from then on.  And a label is dropped before a comment of three semicolons, so
  what stands before a colon in that comment is taken for the label the next time.

  * `codeColumns_short`: columns stay as they are if the mnemonic is narrower than its column;
  * `codeColumns_merged`, `codeColumns_moved`: what becomes of them if it is not;
  * `layoutLine_again`: only the columns of an instruction are laid out anew;
  * `layout_layout_iff`: when laying out a text twice is laying it out once.
-/
import ExprLang.Proofs.LayoutFields

namespace ExprLang

open Text (Blank trim trimLeft trimRight isBlank splitAt blank_nil blank_replicate trim_blanks)

variable {word rest code line columns comment : List Char}

/-! ## Blanks at the end -/

namespace Text

variable {as bs cs es : List Char}

variable {c : Char}

/-- There is no blank in the text. -/
def Unbroken (cs : List Char) : Prop := ∀ c ∈ cs, isBlank c = false

theorem unbroken_append : Unbroken (as ++ bs) ↔ Unbroken as ∧ Unbroken bs := List.forall_mem_append

theorem not_blank_of_mem (hc : c ∈ cs) (h : isBlank c = false) : ¬ Blank cs := by
  intro hb
  cases h.symm.trans (hb c hc)

theorem trimRight_blank (h : Blank cs) : trimRight cs = [] := by
  rw [← List.nil_append cs, trimRight_append_blank h]
  rfl

theorem trimRight_append (bs : List Char) (h : ¬ Blank cs) :
    trimRight (bs ++ cs) = bs ++ trimRight cs := by
  have hcs : (cs.reverse.dropWhile isBlank).isEmpty = false := by
    rw [Bool.eq_false_iff]
    intro hempty
    have hall := List.dropWhile_eq_nil_iff.1 (List.isEmpty_iff.1 hempty)
    exact h fun c hc => hall c (List.mem_reverse.2 hc)
  rw [trimRight, List.reverse_append, List.dropWhile_append, hcs]
  simp [trimRight]

theorem trimRight_unbroken (h : Unbroken cs) : trimRight cs = cs := by
  have hreverse : cs.reverse.dropWhile isBlank = cs.reverse := by
    cases hcs : cs.reverse with
    | nil => rfl
    | cons c ds =>
      have hc : c ∈ cs := by
        rw [← List.mem_reverse, hcs]
        exact .head ds
      exact List.dropWhile_cons_of_neg (by simp [h c hc])
  rw [trimRight, hreverse, List.reverse_reverse]

theorem trimRight_unbroken_append (h : Unbroken cs) (es : List Char) :
    trimRight (cs ++ es) = cs ++ trimRight es := by
  by_cases he : Blank es
  · rw [trimRight_append_blank he, trimRight_blank he, trimRight_unbroken h, List.append_nil]
  · exact trimRight_append cs he

/-- No part of a word in front is cut off. -/
theorem trim_unbroken_append (hne : cs ≠ []) (h : Unbroken cs) (es : List Char) :
    trim (cs ++ es) = cs ++ trimRight es := by
  have hleft : trimLeft (cs ++ es) = cs ++ es := by
    obtain ⟨c, ds, rfl⟩ := List.exists_cons_of_ne_nil hne
    exact List.dropWhile_cons_of_neg (by simp [h c (.head ds)])
  rw [trim, hleft, trimRight_unbroken_append h]

theorem trimRight_trimRight (cs : List Char) : trimRight (trimRight cs) = trimRight cs := by
  obtain ⟨es, he, h⟩ := exists_trimRight cs
  rw [← trimRight_append_blank he, h]

theorem trimRight_append_cons (as : List Char) (hc : isBlank c = false) (cs : List Char) :
    trimRight (as ++ c :: cs) = as ++ c :: trimRight cs := by
  have hword : Unbroken [c] := List.forall_mem_singleton.2 hc
  rw [trimRight_append as (not_blank_of_mem (.head cs) hc)]
  exact congrArg (as ++ ·) (trimRight_unbroken_append hword cs)

theorem trimLeft_append_cons (as : List Char) (hc : isBlank c = false) (cs : List Char) :
    trimLeft (as ++ c :: cs) = trimLeft as ++ c :: cs := by
  rw [trimLeft, List.dropWhile_append]
  split
  · next h => rw [trimLeft, List.isEmpty_iff.1 h, List.dropWhile_cons_of_neg (by simp [hc])]; rfl
  · rfl

theorem trim_trimLeft (cs : List Char) : trim (trimLeft cs) = trim cs := by
  have h := trim_blanks (blank_takeWhile cs) (trimLeft cs) blank_nil
  rw [List.append_nil, trimLeft, List.takeWhile_append_dropWhile] at h
  exact h.symm

theorem trim_trimRight (cs : List Char) : trim (trimRight cs) = trim cs := by
  obtain ⟨es, he, hcs⟩ := exists_trimRight cs
  have h := trim_blanks blank_nil (trimRight cs) he
  rw [List.nil_append, hcs] at h
  exact h.symm

theorem exists_trim_cons (h : ¬ Blank cs) : ∃ c ds, isBlank c = false ∧ trim cs = c :: ds := by
  obtain ⟨bs, es, hb, he, hcs⟩ := exists_trim cs
  cases htrim : trim cs with
  | nil =>
    rw [htrim, List.nil_append] at hcs
    exact absurd (hcs ▸ hb.append he) h
  | cons c ds =>
    refine ⟨c, ds, Bool.eq_false_iff.2 fun hc => ?_, rfl⟩
    have hleft := trimLeft_trim cs
    rw [htrim, trimLeft, List.dropWhile_cons_of_pos hc] at hleft
    have hlength := (List.dropWhile_suffix isBlank (l := ds)).length_le
    rw [hleft] at hlength
    exact absurd hlength (by simp)

/-- The blanks at the end of the text are spaces. -/
def Spaced (cs : List Char) : Prop := ∃ n, cs = trimRight cs ++ List.replicate n ' '

theorem spaced_padRight (width : Nat) (h : trimRight cs = cs) : Spaced (padRight width cs) := by
  refine ⟨width - cs.length, ?_⟩
  rw [padRight, trimRight_append_blank (blank_replicate _), h]

theorem Spaced.append (ha : Spaced as) (hb : Spaced bs) : Spaced (as ++ bs) := by
  obtain ⟨m, hm⟩ := ha
  obtain ⟨n, hn⟩ := hb
  by_cases hblank : Blank bs
  · refine ⟨m + n, ?_⟩
    rw [trimRight_blank hblank, List.nil_append] at hn
    rw [trimRight_append_blank hblank, List.replicate_add, ← List.append_assoc, ← hm, ← hn]
  · refine ⟨n, ?_⟩
    rw [trimRight_append as hblank, List.append_assoc, ← hn]

end Text

open Text (Unbroken Spaced)

/-! ## Operands -/

theorem operandColumns_cons (part next : List Char) (parts : List (List Char)) :
    operandColumns (part :: next :: parts) =
      column (trim part ++ [',']) ++ operandColumns (next :: parts) := rfl

theorem operandColumns_map_trim : ∀ parts : List (List Char),
    operandColumns (parts.map trim) = operandColumns parts
  | [] => rfl
  | [last] => by
    rw [List.map_singleton, operandColumns, operandColumns, Text.trim_trim]
  | part :: next :: parts => by
    have ih := operandColumns_map_trim (next :: parts)
    rw [List.map_cons] at ih
    rw [List.map_cons, List.map_cons, operandColumns_cons, operandColumns_cons, ih, Text.trim_trim]

theorem operandColumns_again (cs : List Char) :
    operandColumns (splitAt ',' (trim (operandColumns (splitAt ',' cs)))) =
      operandColumns (splitAt ',' cs) := by
  obtain ⟨bs, es, hb, he, h⟩ := Text.exists_trim (operandColumns (splitAt ',' cs))
  have hblanks := Text.splitAt_blanks (show isBlank ',' = false from rfl) hb
    (trim (operandColumns (splitAt ',' cs))) he
  have hcolumns := splitAt_operandColumns (Text.splitAt_ne_nil ',' cs) fun _ =>
    Text.not_mem_of_mem_splitAt
  rw [← operandColumns_map_trim, ← hblanks, h, hcolumns, operandColumns_map_trim]

theorem operandColumns_head {c : Char} (hc : isBlank c = false) (cs : List Char) :
    ∃ d ds, isBlank d = false ∧ operandColumns (splitAt ',' (c :: cs)) = d :: ds := by
  obtain ⟨part, parts, -, hsplit⟩ := Text.splitAt_cons ',' c cs
  rw [hsplit]
  by_cases hcomma : c = ','
  · refine ⟨',', List.replicate 7 ' ' ++ operandColumns (part :: parts), rfl, ?_⟩
    rw [if_pos hcomma, operandColumns_cons]
    rfl
  · have hword : Unbroken [c] := List.forall_mem_singleton.2 hc
    have htrim : trim (c :: part) = c :: trimRight part :=
      Text.trim_unbroken_append (by simp) hword part
    rw [if_neg hcomma]
    cases parts with
    | nil => exact ⟨c, _, hc, by rw [operandColumns, htrim]; rfl⟩
    | cons next parts =>
      exact ⟨c, _, hc, by rw [operandColumns_cons, htrim]; rfl⟩

theorem spaced_operandColumns : ∀ parts : List (List Char), Spaced (operandColumns parts)
  | [] => ⟨0, rfl⟩
  | [last] => by
    have htrim : trimRight (trim last) = trim last := by
      rw [trim, Text.trimRight_trimRight]
    exact Text.spaced_padRight _ htrim
  | part :: next :: parts => by
    have hcomma : trimRight (trim part ++ [',']) = trim part ++ [','] :=
      Text.trimRight_append (trim part) (Text.not_blank_of_mem (c := ',') (by simp) rfl)
    rw [operandColumns_cons]
    exact (Text.spaced_padRight _ hcomma).append (spaced_operandColumns (next :: parts))

/-! ## Instructions -/

/-- The mnemonic of an instruction. -/
def firstWord (code : List Char) : List Char := (trim code).takeWhile (!isBlank ·)

theorem codeColumns_blanks {bs es : List Char} (hb : Blank bs) (code : List Char)
    (he : Blank es) : codeColumns (bs ++ (code ++ es)) = codeColumns code := by
  rw [codeColumns, trim_blanks hb code he]
  rfl

/-- What stands behind the first word of a text. -/
theorem word_split (hword : Unbroken word) {b : Char} (hb : isBlank b = true) (rest : List Char) :
    (word ++ b :: rest).takeWhile (!isBlank ·) = word ∧
      (word ++ b :: rest).dropWhile (!isBlank ·) = b :: rest := by
  have hnot : ∀ c ∈ word, (!isBlank c) = true := fun c hc => by simp [hword c hc]
  constructor
  · rw [List.takeWhile_append_of_pos hnot, List.takeWhile_cons_of_neg (by simp [hb]),
      List.append_nil]
  · rw [List.dropWhile_append_of_pos hnot, List.dropWhile_cons_of_neg (by simp [hb])]

theorem word_alone (hword : Unbroken word) :
    word.takeWhile (!isBlank ·) = word ∧ word.dropWhile (!isBlank ·) = [] := by
  have hnot : ∀ c ∈ word, (!isBlank c) = true := fun c hc => by simp [hword c hc]
  exact ⟨List.takeWhile_eq_self_iff.2 hnot, List.dropWhile_eq_nil_iff.2 hnot⟩

theorem trim_unbroken (hword : Unbroken word) : trim word = word := by
  cases word with
  | nil => rfl
  | cons c cs =>
    have htrim := Text.trim_unbroken_append (List.cons_ne_nil c cs) hword []
    rwa [Text.trimRight_blank blank_nil, List.append_nil] at htrim

theorem codeColumns_word (hword : Unbroken word) : codeColumns word = column word := by
  obtain ⟨htake, hdrop⟩ := word_alone hword
  simp only [codeColumns, trim_unbroken hword, htake, hdrop]

/-- A word and something behind a gap are laid out as a mnemonic and operands. -/
theorem codeColumns_operands {gap : List Char} (hne : word ≠ []) (hword : Unbroken word)
    (hgapne : gap ≠ []) (hgap : Blank gap) (hrest : ¬ Blank rest) :
    codeColumns (word ++ (gap ++ rest)) =
      column word ++ operandColumns (splitAt ',' (trim rest)) := by
  obtain ⟨b, bs, rfl⟩ := List.exists_cons_of_ne_nil hgapne
  have hb : isBlank b = true := hgap b (.head bs)
  have htrim : trim (word ++ (b :: bs ++ rest)) = word ++ b :: (bs ++ trimRight rest) := by
    rw [Text.trim_unbroken_append hne hword, Text.trimRight_append _ hrest]
    rfl
  have hoperands : trim (b :: (bs ++ trimRight rest)) = trim rest := by
    obtain ⟨es, he, h⟩ := Text.exists_trimRight rest
    have hleft := trim_blanks hgap (trimRight rest) blank_nil
    have hright := trim_blanks blank_nil (trimRight rest) he
    rw [List.append_nil] at hleft
    rw [List.nil_append, h] at hright
    exact hleft.trans hright.symm
  obtain ⟨htake, hdrop⟩ := word_split hword hb (bs ++ trimRight rest)
  simp only [codeColumns, htrim, htake, hdrop, hoperands]

theorem firstWord_cases (code : List Char) : Unbroken (firstWord code) ∧
    (codeColumns code = column (firstWord code) ∨
      ∃ rest, firstWord code ≠ [] ∧ ¬ Blank rest ∧
        codeColumns code =
          column (firstWord code) ++ operandColumns (splitAt ',' (trim rest))) := by
  obtain ⟨word, hword, ⟨hcode, hcolumns⟩ | ⟨b, rest, hne, hb, hcode, hcolumns⟩⟩ :=
    codeColumns_cases code
  · have hfirst : firstWord code = word := by
      rw [firstWord, hcode]
      exact (word_alone hword).1
    rw [hfirst]
    exact ⟨hword, .inl hcolumns⟩
  · have hfirst : firstWord code = word := by
      rw [firstWord, hcode]
      exact (word_split hword hb rest).1
    rw [hfirst]
    refine ⟨hword, .inr ⟨b :: rest, hne, fun hblank => ?_, hcolumns⟩⟩
    -- Otherwise the blanks would have been trimmed.
    have htrim := Text.trim_trim code
    rw [hcode, Text.trim_unbroken_append hne hword, Text.trimRight_blank hblank] at htrim
    simp at htrim

theorem not_blank_operandColumns (h : ¬ Blank rest) :
    ¬ Blank (operandColumns (splitAt ',' (trim rest))) := by
  obtain ⟨c, cs, hc, htrim⟩ := Text.exists_trim_cons h
  obtain ⟨d, ds, hd, hcolumns⟩ := operandColumns_head hc cs
  rw [htrim, hcolumns]
  exact Text.not_blank_of_mem (.head ds) hd

/-- **Columns stay as they are, if the mnemonic is narrower than its column.** -/
theorem codeColumns_short (h : (firstWord code).length < columnWidth) :
    codeColumns (codeColumns code) = codeColumns code := by
  obtain ⟨hword, hcolumns | ⟨rest, hne, hrest, hcolumns⟩⟩ := firstWord_cases code
  · obtain ⟨es, he, hpad⟩ := padRight_eq columnWidth (firstWord code)
    have hblanks := codeColumns_blanks blank_nil (firstWord code) he
    rw [hcolumns, column, hpad]
    exact hblanks.trans ((codeColumns_word hword).trans hpad)
  · obtain ⟨es, he, hcolumn⟩ := column_eq h
    have hspace : Blank [' '] := blank_replicate 1
    have hgap : Blank (' ' :: es) := hspace.append he
    have hsplit : codeColumns code =
        firstWord code ++ (' ' :: es ++ operandColumns (splitAt ',' (trim rest))) := by
      rw [hcolumns, hcolumn, List.append_assoc]
    rw [hsplit, codeColumns_operands hne hword (List.cons_ne_nil _ _) hgap
      (not_blank_operandColumns hrest), operandColumns_again, hcolumn, List.append_assoc]

theorem spaced_codeColumns (code : List Char) : Spaced (codeColumns code) := by
  obtain ⟨hword, hcolumns | ⟨rest, -, -, hcolumns⟩⟩ := firstWord_cases code
  · rw [hcolumns]
    exact Text.spaced_padRight _ (Text.trimRight_unbroken hword)
  · rw [hcolumns]
    exact (Text.spaced_padRight _ (Text.trimRight_unbroken hword)).append (spaced_operandColumns _)

/-- A text that fills its column stands there alone. -/
theorem column_wide {cs : List Char} (h : columnWidth ≤ cs.length) : column cs = cs := by
  rw [column, Text.padRight, Nat.sub_eq_zero_of_le h, List.replicate_zero, List.append_nil]

/-- The word in front of the columns, if the mnemonic fills its own. -/
theorem exists_wide (h : columnWidth ≤ (firstWord code).length) :
    ∃ rest, codeColumns code = firstWord code ++ rest := by
  obtain ⟨-, hcolumns | ⟨rest, -, -, hcolumns⟩⟩ := firstWord_cases code
  · exact ⟨[], by rw [hcolumns, column_wide h, List.append_nil]⟩
  · exact ⟨_, by rw [hcolumns, column_wide h]⟩

/-- **A wide mnemonic takes in its operands**, if there is no blank between and in them.  The blanks
    behind are dropped. -/
theorem codeColumns_merged (h : columnWidth ≤ (firstWord code).length)
    (hword : Unbroken (trimRight (codeColumns code))) :
    codeColumns (codeColumns code) = trimRight (codeColumns code) := by
  have hwide : columnWidth ≤ (trimRight (codeColumns code)).length := by
    obtain ⟨rest, hrest⟩ := exists_wide h
    rw [hrest, Text.trimRight_unbroken_append (firstWord_cases code).1, List.length_append]
    omega
  obtain ⟨es, he, hes⟩ := Text.exists_trimRight (codeColumns code)
  have hblanks := codeColumns_blanks blank_nil (trimRight (codeColumns code)) he
  rw [List.nil_append, hes] at hblanks
  rw [hblanks, codeColumns_word hword, column_wide hwide]

/-- **A wide mnemonic takes in what stands before the first blank**, and the rest moves up to it. -/
theorem codeColumns_moved (h : columnWidth ≤ (firstWord code).length)
    (hbroken : ¬ Unbroken (trimRight (codeColumns code))) :
    ∃ u b v c w, isBlank b = true ∧ isBlank c = false ∧ codeColumns code = u ++ b :: v ∧
      codeColumns (codeColumns code) = u ++ c :: w := by
  obtain ⟨rest, hrest⟩ := exists_wide h
  obtain ⟨hfirst, -⟩ := firstWord_cases code
  -- The word that the mnemonic becomes, and what stands behind it.
  obtain ⟨word, behind, hword, hwide, hbehind, hsplit⟩ : ∃ word behind, Unbroken word ∧
      columnWidth ≤ word.length ∧ (∀ b v, behind = b :: v → isBlank b = true) ∧
      codeColumns code = word ++ behind := by
    refine ⟨firstWord code ++ rest.takeWhile (!isBlank ·), rest.dropWhile (!isBlank ·),
      Text.unbroken_append.2 ⟨hfirst, fun c hc => ?_⟩, ?_, fun b v hbv => ?_, ?_⟩
    · simpa using List.all_eq_true.1 List.all_takeWhile c hc
    · rw [List.length_append]
      omega
    · have hhead := List.head_dropWhile_not (!isBlank ·) (l := rest) (by simp [hbv])
      simpa [hbv] using hhead
    · rw [hrest, List.append_assoc, List.takeWhile_append_dropWhile]
  have hne : word ≠ [] := by
    rintro rfl
    exact absurd hwide (by decide)
  have hloose : ¬ Blank behind := by
    intro hblank
    rw [hsplit, Text.trimRight_append_blank hblank, Text.trimRight_unbroken hword] at hbroken
    exact hbroken hword
  have hops : ¬ Blank (trimLeft behind) := by
    intro hblank
    have hgap := (Text.blank_takeWhile behind).append hblank
    rw [trimLeft, List.takeWhile_append_dropWhile] at hgap
    exact hloose hgap
  cases behind with
  | nil => exact absurd blank_nil hloose
  | cons b v =>
    have hb : isBlank b = true := hbehind b v rfl
    have hgap : (b :: v).takeWhile isBlank ≠ [] := by simp [hb]
    have hagain := codeColumns_operands hne hword hgap (Text.blank_takeWhile _) hops
    rw [trimLeft, List.takeWhile_append_dropWhile, ← hsplit, column_wide hwide] at hagain
    obtain ⟨c, cs, hc, htrim⟩ := Text.exists_trim_cons hops
    obtain ⟨d, ds, hd, hcolumns⟩ := operandColumns_head hc cs
    rw [trimLeft] at htrim
    rw [htrim, hcolumns] at hagain
    exact ⟨word, b, v, d, ds, hb, hd, hsplit, hagain⟩

theorem codeColumns_congr {code' : List Char} (h : trim code = trim code') :
    codeColumns code = codeColumns code' := by
  rw [codeColumns, h]
  rfl

theorem blank_of_codeColumns (h : Blank (codeColumns code)) : Blank code := by
  by_contra hcode
  obtain ⟨c, cs, hc, htrim⟩ := Text.exists_trim_cons hcode
  have hfirst : c ∈ firstWord code := by
    rw [firstWord, htrim, List.takeWhile_cons_of_pos (by simp [hc])]
    exact .head _
  have hmem : c ∈ codeColumns code := by
    obtain ⟨-, hcolumns | ⟨rest, -, -, hcolumns⟩⟩ := firstWord_cases code
    · rw [hcolumns]
      exact List.mem_append_left _ hfirst
    · rw [hcolumns]
      exact List.mem_append_left _ (List.mem_append_left _ hfirst)
  exact Text.not_blank_of_mem hmem hc h

/-! ## Lines -/

def labelPart (line : List Char) : List Char := (labelColumn (trim line)).1

/-- What stands behind the label of a line. -/
def restPart (line : List Char) : List Char := (labelColumn (trim line)).2

def codePart (line : List Char) : List Char := (splitComment (restPart line)).1

def commentPart (line : List Char) : List Char := (splitComment (restPart line)).2.getD []

/-- A comment of three semicolons. -/
def isNote (rest : List Char) : Bool := [';', ';', ';'].isPrefixOf rest

/-- The columns of an instruction, and a comment behind `gap` spaces. -/
def withComment (columns : List Char) (gap : Nat) (comment : List Char) : List Char :=
  if comment = [] then columns else columns ++ (List.replicate gap ' ' ++ ';' :: comment)

def lineOf (label columns comment : List Char) : List Char :=
  label ++ withComment columns (40 - (label ++ columns).length) comment

theorem layoutLine_note (h : isNote (restPart line) = true) :
    layoutLine line = List.replicate 4 ' ' ++ restPart line := by
  rw [layoutLine]
  exact if_pos h

theorem layoutLine_eq (h : isNote (restPart line) = false) :
    layoutLine line = lineOf (labelPart line) (codeColumns (codePart line)) (commentPart line) := by
  rw [isNote, restPart] at h
  rw [layoutLine, lineOf, labelPart, codePart, commentPart, restPart]
  simp only [h]
  obtain ⟨code, comment, hparts⟩ : ∃ code comment,
    splitComment (labelColumn (trim line)).2 = (code, comment) := ⟨_, _, rfl⟩
  rw [hparts]
  rcases comment with _ | _ | ⟨c, cs⟩
  · rfl
  · rfl
  · simp [withComment, Text.padRight]

theorem splitComment_parts (rest : List Char) :
    ';' ∉ (splitComment rest).1 ∧ (splitComment rest).1 ⊆ rest ∧
      (splitComment rest).2.getD [] ⊆ rest ∧
      trimRight ((splitComment rest).2.getD []) = (splitComment rest).2.getD [] ∧
      ((splitComment rest).2.getD [] ≠ [] →
        trim rest = (splitComment rest).1 ++ ';' :: (splitComment rest).2.getD []) := by
  rw [splitComment]
  rcases Text.cut?_cases ';' (trim rest) with ⟨hnot, hcut⟩ | ⟨code, comment, hnot, hcode, hcut⟩
  · obtain ⟨bs, es, hb, he, hrest⟩ := Text.exists_trim rest
    have hbs : ';' ∉ bs := hb.not_mem rfl
    have hes : ';' ∉ es := he.not_mem rfl
    have hnot' : ';' ∉ rest := by
      rw [← hrest]
      simp [hnot, hbs, hes]
    rw [hcut]
    exact ⟨hnot', List.Subset.refl rest, List.nil_subset rest, rfl, fun h => absurd rfl h⟩
  · have hsub : code ++ ';' :: comment ⊆ rest := fun c hc => by
      rw [← hcode] at hc
      exact Text.mem_of_mem_trim hc
    obtain ⟨hsubcode, hsubcomment⟩ := List.append_subset.1 hsub
    have hright : trimRight (code ++ ';' :: comment) = code ++ ';' :: comment := by
      rw [← hcode, trim, Text.trimRight_trimRight]
    rw [Text.trimRight_append_cons code rfl] at hright
    rw [hcut]
    exact ⟨hnot, hsubcode, (List.cons_subset.1 hsubcomment).2,
      (List.cons.inj (List.append_cancel_left hright)).2, fun _ => hcode⟩

theorem trim_withComment {gap : Nat} (hnone : comment ≠ [])
    (hcomment : trimRight comment = comment) : trim (withComment columns gap comment) =
      trimLeft (columns ++ List.replicate gap ' ') ++ ';' :: comment := by
  rw [withComment, if_neg hnone, ← List.append_assoc, trim, Text.trimLeft_append_cons _ rfl,
    Text.trimRight_append_cons _ rfl, hcomment]

theorem not_mem_trimLeft_gap (h : ';' ∉ columns) (gap : Nat) :
    ';' ∉ trimLeft (columns ++ List.replicate gap ' ') := by
  intro hmem
  rcases List.mem_append.1 ((List.dropWhile_sublist isBlank).subset hmem) with hmem | hmem
  · exact h hmem
  · exact (blank_replicate gap).not_mem rfl hmem

/-- The parts are found again in what is laid out. -/
theorem splitComment_withComment {gap : Nat} (hcolumns : ';' ∉ columns)
    (hcomment : trimRight comment = comment)
    (h : trim rest = trim (withComment columns gap comment)) :
    codeColumns (splitComment rest).1 = codeColumns columns ∧
      (splitComment rest).2.getD [] = comment := by
  by_cases hnone : comment = []
  · subst hnone
    have hcut : Text.cut? ';' (trim rest) = none := by
      rw [h]
      exact Text.cut?_of_not_mem (mt Text.mem_of_mem_trim hcolumns)
    rw [splitComment, hcut]
    exact ⟨codeColumns_congr h, rfl⟩
  · have hgap := trim_blanks blank_nil columns (blank_replicate gap)
    rw [List.nil_append] at hgap
    rw [splitComment, h, trim_withComment hnone hcomment,
      Text.cut?_append comment (not_mem_trimLeft_gap hcolumns gap)]
    refine ⟨codeColumns_congr ?_, rfl⟩
    rw [Text.trim_trimLeft, hgap]

/-- A comment does not grow to one of three semicolons. -/
theorem isNote_withComment (htrim : trim rest = rest) (h : isNote rest = false) (gap : Nat) :
    isNote (trim (withComment (codeColumns (splitComment rest).1) gap
      ((splitComment rest).2.getD []))) = false := by
  obtain ⟨hcode, -, -, hcomment, hrest⟩ := splitComment_parts rest
  have hcolumns : ';' ∉ codeColumns (splitComment rest).1 := List.forall_mem_ne'.1
    (forall_codeColumns (by decide) (by decide) (List.forall_mem_ne'.2 hcode))
  rw [Bool.eq_false_iff]
  intro hnote
  by_cases hnone : (splitComment rest).2.getD [] = []
  · rw [hnone] at hnote
    obtain ⟨tail, htail⟩ := List.isPrefixOf_iff_prefix.1 hnote
    have hmem : ';' ∈ trim (codeColumns (splitComment rest).1) := by
      rw [show withComment (codeColumns (splitComment rest).1) gap [] =
        codeColumns (splitComment rest).1 from rfl] at htail
      rw [← htail]
      simp
    exact hcolumns (Text.mem_of_mem_trim hmem)
  · rw [trim_withComment hnone hcomment] at hnote
    have hsemi := not_mem_trimLeft_gap hcolumns gap
    cases hleft : trimLeft (codeColumns (splitComment rest).1 ++ List.replicate gap ' ') with
    | cons c cs =>
      rw [hleft] at hnote hsemi
      obtain ⟨tail, htail⟩ := List.isPrefixOf_iff_prefix.1 hnote
      have hc : ';' = c := (List.cons.inj htail).1
      exact hsemi (hc ▸ .head cs)
    | nil =>
      -- There is nothing before the comment, so it is the whole line.
      have hblank : Blank (codeColumns (splitComment rest).1) := fun c hc =>
        List.dropWhile_eq_nil_iff.1 hleft c (List.mem_append_left _ hc)
      have hcodeblank := blank_of_codeColumns hblank
      have hfull := hrest hnone
      have hnil : (splitComment rest).1 = [] := by
        have hstart := Text.trimLeft_trim rest
        rw [hfull, Text.trimLeft_append_cons _ rfl, Text.trimLeft_blank hcodeblank,
          List.nil_append] at hstart
        have hlength := congrArg List.length hstart
        simp only [List.length_append, List.length_cons] at hlength
        exact List.length_eq_zero_iff.1 (by omega)
      rw [hleft, List.nil_append] at hnote
      rw [htrim, hnil, List.nil_append] at hfull
      rw [hfull, hnote] at h
      cases h

def laidRest (line : List Char) : List Char :=
  withComment (codeColumns (codePart line))
    (40 - (labelPart line ++ codeColumns (codePart line)).length) (commentPart line)

theorem colon_not_mem_laidRest (h : ':' ∉ restPart line) : ':' ∉ laidRest line := by
  obtain ⟨-, hcode, hcomment, -, -⟩ := splitComment_parts (restPart line)
  have hcolumns : ':' ∉ codeColumns (codePart line) := List.forall_mem_ne'.1
    (forall_codeColumns (by decide) (by decide) (List.forall_mem_ne'.2 fun hmem => h (hcode hmem)))
  have hgap : ∀ n, ':' ∉ List.replicate n ' ' := fun n => (blank_replicate n).not_mem rfl
  rw [laidRest, withComment]
  split
  · exact hcolumns
  · have hnote : ':' ∉ commentPart line := fun hmem => h (hcomment hmem)
    simp only [List.mem_append, List.mem_cons, not_or]
    exact ⟨hcolumns, hgap _, by decide, hnote⟩

/-- **The label of a line is found again**, and so is what stands behind it. -/
theorem labelColumn_again (h : isNote (restPart line) = false) :
    labelPart (layoutLine line) = labelPart line ∧ isNote (restPart (layoutLine line)) = false ∧
      trim (restPart (layoutLine line)) = trim (laidRest line) := by
  have hlaid : layoutLine line = labelPart line ++ laidRest line := layoutLine_eq h
  rcases Text.cut?_cases ':' (trim line) with ⟨hnot, hcut⟩ | ⟨name, rest, hnot, hline, hcut⟩
  · have hcolumn : labelColumn (trim line) = (column [], trim line) := by rw [labelColumn, hcut]
    have hlabel : labelPart line = column [] := by rw [labelPart, hcolumn]
    have hrest : restPart line = trim line := by rw [restPart, hcolumn]
    have htrim : trim (layoutLine line) = trim (laidRest line) := by
      have hblanks := trim_blanks (blank_replicate 8) (laidRest line) blank_nil
      rw [List.append_nil] at hblanks
      rw [hlaid, hlabel]
      exact hblanks
    have hnone : ':' ∉ trim (laidRest line) :=
      mt Text.mem_of_mem_trim (colon_not_mem_laidRest (hrest ▸ hnot))
    have hagain : labelColumn (trim (layoutLine line)) = (column [], trim (laidRest line)) := by
      rw [labelColumn, htrim, Text.cut?_of_not_mem hnone]
    rw [labelPart, restPart, hagain, hlabel]
    refine ⟨rfl, ?_, Text.trim_trim _⟩
    rw [hrest] at h
    have hnote := isNote_withComment (Text.trim_trim line) h
      (40 - (labelPart line ++ codeColumns (codePart line)).length)
    rwa [← hrest] at hnote
  · have hcolumn : labelColumn (trim line) = (column (name ++ [':', ' ']), rest) := by
      rw [labelColumn, hcut]
    have hlabel : labelPart line = column (name ++ [':', ' ']) := by rw [labelPart, hcolumn]
    obtain ⟨es, he, hpad⟩ := padRight_eq columnWidth (name ++ [':', ' '])
    have hspace : Blank [' '] := blank_replicate 1
    have hgap : Blank (' ' :: es) := hspace.append he
    have hsplit : layoutLine line = name ++ ':' :: (' ' :: es ++ laidRest line) := by
      rw [hlaid, hlabel, column, hpad]
      simp
    have hname : trimLeft name = name := by
      have hstart := Text.trimLeft_trim line
      rw [hline, Text.trimLeft_append_cons name rfl] at hstart
      exact List.append_cancel_right hstart
    have htrim : trim (layoutLine line) =
        name ++ ':' :: trimRight (' ' :: es ++ laidRest line) := by
      rw [hsplit, trim, Text.trimLeft_append_cons name rfl, hname,
        Text.trimRight_append_cons name rfl]
    have hagain : labelColumn (trim (layoutLine line)) =
        (column (name ++ [':', ' ']), trimRight (' ' :: es ++ laidRest line)) := by
      rw [labelColumn, htrim, Text.cut?_append _ hnot]
    rw [labelPart, restPart, hagain, hlabel]
    refine ⟨rfl, ?_, ?_⟩
    · -- Behind the label there is a space, or nothing at all.
      rw [Bool.eq_false_iff]
      intro hnote
      obtain ⟨tail, htail⟩ := List.isPrefixOf_iff_prefix.1 hnote
      obtain ⟨fs, -, hfs⟩ := Text.exists_trimRight (' ' :: es ++ laidRest line)
      have hstart : [';', ';', ';'] ++ tail ++ fs = ' ' :: es ++ laidRest line :=
        (congrArg (· ++ fs) htail).trans hfs
      cases (List.cons.inj hstart).1
    · have hblanks := trim_blanks hgap (laidRest line) blank_nil
      rw [List.append_nil] at hblanks
      rw [Text.trim_trimRight, hblanks]

/-- **Only the columns of the instruction are laid out anew.** -/
theorem layoutLine_again (h : isNote (restPart line) = false) : layoutLine (layoutLine line) =
      lineOf (labelPart line) (codeColumns (codeColumns (codePart line))) (commentPart line) := by
  obtain ⟨hlabel, hnote, htrim⟩ := labelColumn_again h
  obtain ⟨hcode, -, -, hcomment, -⟩ := splitComment_parts (restPart line)
  have hcolumns : ';' ∉ codeColumns (codePart line) := List.forall_mem_ne'.1
    (forall_codeColumns (by decide) (by decide) (List.forall_mem_ne'.2 hcode))
  obtain ⟨hcode', hcomment'⟩ := splitComment_withComment hcolumns hcomment htrim
  rw [layoutLine_eq hnote, hlabel, codePart, hcode', commentPart, hcomment']
  rfl

theorem trimRight_restPart (line : List Char) : trimRight (restPart line) = restPart line := by
  have hright : trimRight (trim line) = trim line := by rw [trim, Text.trimRight_trimRight]
  rw [restPart, labelColumn]
  rcases Text.cut?_cases ':' (trim line) with ⟨-, hcut⟩ | ⟨name, rest, -, hline, hcut⟩
  · rw [hcut]
    exact hright
  · rw [hline, Text.trimRight_append_cons name rfl] at hright
    rw [hcut]
    exact (List.cons.inj (List.append_cancel_left hright)).2

/-- **A note stays as it is, unless there is a colon in it.** -/
theorem note_again (h : isNote (restPart line) = true) :
    layoutLine (layoutLine line) = layoutLine line ↔ ':' ∉ restPart line := by
  have hlaid := layoutLine_note h
  obtain ⟨tail, htail⟩ := List.isPrefixOf_iff_prefix.1 h
  have htrim : trim (layoutLine line) = restPart line := by
    have hblanks := trim_blanks (blank_replicate 4) (restPart line) blank_nil
    have hleft : trimLeft (restPart line) = restPart line := by
      rw [← htail]
      rfl
    rw [List.append_nil] at hblanks
    rw [hlaid, hblanks, trim, hleft, trimRight_restPart]
  constructor
  · intro hagain hcolon
    obtain ⟨name, rest, hrest, hname⟩ := List.eq_append_cons_of_mem hcolon
    have hcolumn : labelColumn (trim (layoutLine line)) = (column (name ++ [':', ' ']), rest) := by
      rw [labelColumn, htrim, hrest, Text.cut?_append rest hname]
    have hpart : restPart (layoutLine line) = rest := by rw [restPart, hcolumn]
    by_cases hnote : isNote rest = true
    · -- The text before the colon is dropped, too.
      rw [layoutLine_note (by rw [hpart]; exact hnote), hpart, hlaid, hrest] at hagain
      have hlength := congrArg List.length (List.append_cancel_left hagain)
      simp only [List.length_append, List.length_cons] at hlength
      omega
    · -- The text before the colon becomes a label, which is not indented.
      have hlabel : labelPart (layoutLine line) = column (name ++ [':', ' ']) := by
        rw [labelPart, hcolumn]
      rw [layoutLine_eq (by rw [hpart]; exact Bool.eq_false_iff.2 hnote), hlabel, hlaid] at hagain
      rw [hrest] at htail
      cases name with
      | nil => cases (List.cons.inj htail).1
      | cons c cs =>
        have hc : ';' = c := (List.cons.inj htail).1
        have hspace : c = ' ' := (List.cons.inj hagain).1
        exact absurd (hc.trans hspace) (by decide)
  · intro hnot
    have hcolumn : labelColumn (trim (layoutLine line)) = (column [], restPart line) := by
      rw [labelColumn, htrim, Text.cut?_of_not_mem hnot]
    have hpart : restPart (layoutLine line) = restPart line := by
      rw [restPart, hcolumn]
    rw [layoutLine_note (by rw [hpart]; exact h), hpart, hlaid]

/-! ## Texts -/

/-- A line that stays as it is once it is laid out.  A note has no colon in it.  Else the mnemonic
    is narrower than its column; or there is no blank in the columns of the instruction, so that
    they are one word from the start; or there are blanks at their end only, and the comment stands
    where it would stand without them. -/
def Settled (line : List Char) : Prop :=
  if isNote (restPart line) = true then ':' ∉ restPart line
  else (firstWord (codePart line)).length < columnWidth ∨ Unbroken (codeColumns (codePart line)) ∨
    commentPart line ≠ [] ∧ Unbroken (trimRight (codeColumns (codePart line))) ∧
      (labelPart line ++ codeColumns (codePart line)).length ≤ 40

theorem exists_lineOf (label columns comment : List Char) :
    ∃ tail, lineOf label columns comment = label ++ (columns ++ tail) := by
  rw [lineOf, withComment]
  split
  · exact ⟨[], by rw [List.append_nil]⟩
  · exact ⟨_, rfl⟩

theorem lineOf_nil (label columns : List Char) : lineOf label columns [] = label ++ columns := rfl

theorem lineOf_comment (label columns : List Char) (h : comment ≠ []) :
    lineOf label columns comment = Text.padRight 40 (label ++ columns) ++ ';' :: comment := by
  rw [lineOf, withComment, if_neg h, Text.padRight]
  simp

/-- Spaces at the end of a text count as filling. -/
theorem padRight_spaces_iff {cs : List Char} {k : Nat} (hk : 0 < k) (width : Nat) :
    Text.padRight width cs = Text.padRight width (cs ++ List.replicate k ' ') ↔
      cs.length + k ≤ width := by
  constructor
  · intro h
    have hlength := congrArg List.length h
    simp only [Text.padRight, List.length_append, List.length_replicate] at hlength
    omega
  · intro h
    have hfill : width - cs.length = k + (width - (cs.length + k)) := by omega
    rw [Text.padRight, Text.padRight, List.length_append, List.length_replicate, hfill,
      List.replicate_add, List.append_assoc]

theorem lineOf_again_iff (label code comment : List Char) :
    lineOf label (codeColumns (codeColumns code)) comment =
        lineOf label (codeColumns code) comment ↔
      (firstWord code).length < columnWidth ∨ Unbroken (codeColumns code) ∨
        comment ≠ [] ∧ Unbroken (trimRight (codeColumns code)) ∧
          (label ++ codeColumns code).length ≤ 40 := by
  by_cases hshort : (firstWord code).length < columnWidth
  · rw [codeColumns_short hshort]
    exact ⟨fun _ => .inl hshort, fun _ => rfl⟩
  have hwide : columnWidth ≤ (firstWord code).length := Nat.not_lt.1 hshort
  by_cases hword : Unbroken (trimRight (codeColumns code))
  · obtain ⟨k, hk⟩ := spaced_codeColumns code
    rw [codeColumns_merged hwide hword]
    generalize trimRight (codeColumns code) = front at hk hword
    rw [hk]
    rcases Nat.eq_zero_or_pos k with rfl | hpos
    · rw [List.replicate_zero, List.append_nil]
      exact ⟨fun _ => .inr (.inl hword), fun _ => rfl⟩
    have hbroken : ¬ Unbroken (front ++ List.replicate k ' ') := by
      intro h
      have hmem : ' ' ∈ List.replicate k ' ' := List.mem_replicate.2 ⟨hpos.ne', rfl⟩
      cases h ' ' (List.mem_append_right front hmem)
    by_cases hnone : comment = []
    · subst hnone
      simp only [hshort, hbroken, ne_eq, not_true_eq_false, false_and, or_self, iff_false]
      intro h
      rw [lineOf_nil, lineOf_nil] at h
      have hlength := congrArg List.length (List.append_cancel_left h)
      rw [List.length_append, List.length_replicate] at hlength
      omega
    · simp only [hshort, hbroken, hnone, hword, ne_eq, not_false_eq_true, true_and, false_or]
      have hwidth :
          (label ++ front ++ List.replicate k ' ').length = (label ++ front).length + k := by
        rw [List.length_append, List.length_replicate]
      rw [lineOf_comment _ _ hnone, lineOf_comment _ _ hnone, List.append_left_inj,
        ← List.append_assoc, padRight_spaces_iff hpos, hwidth]
  · have hbroken : ¬ Unbroken (codeColumns code) := by
      intro h
      rw [Text.trimRight_unbroken h] at hword
      exact hword h
    simp only [hshort, hbroken, hword, false_and, and_false, or_self, iff_false]
    obtain ⟨u, b, v, c, w, hb, hc, hcolumns, hagain⟩ := codeColumns_moved hwide hword
    intro h
    obtain ⟨tail, htail⟩ := exists_lineOf label (u ++ c :: w) comment
    obtain ⟨tail', htail'⟩ := exists_lineOf label (u ++ b :: v) comment
    rw [hagain, hcolumns, htail, htail', List.append_assoc, List.append_assoc] at h
    have hsame := (List.cons.inj (List.append_cancel_left (List.append_cancel_left h))).1
    rw [hsame, hb] at hc
    cases hc

/-- **A line that is laid out twice.** -/
theorem layoutLine_layoutLine_iff (line : List Char) :
    layoutLine (layoutLine line) = layoutLine line ↔ Settled line := by
  rw [Settled]
  by_cases hnote : isNote (restPart line) = true
  · rw [if_pos hnote]
    exact note_again hnote
  · rw [if_neg hnote, layoutLine_again (Bool.eq_false_iff.2 hnote),
      layoutLine_eq (Bool.eq_false_iff.2 hnote)]
    exact lineOf_again_iff _ _ _

/-- **Laying out a text a second time changes nothing, exactly if all its lines are settled.** -/
theorem layout_layout_iff (text : String) :
    layout (layout text) = layout text ↔ ∀ line ∈ Text.lines text.toList, Settled line := by
  have hlines := lines_layout text
  constructor
  · intro h line hline
    rw [← layoutLine_layoutLine_iff]
    have htwice := lines_layout (layout text)
    rw [h, hlines, List.map_map] at htwice
    have hsame := List.map_inj_left.1 htwice line hline
    rw [Function.comp_apply] at hsame
    exact hsame.symm
  · intro h
    have hsame : layoutLines ((Text.lines text.toList).map layoutLine) =
        layoutLines (Text.lines text.toList) := by
      rw [layoutLines, layoutLines, List.flatMap_map]
      refine List.flatMap_congr fun line hline => ?_
      rw [(layoutLine_layoutLine_iff line).2 (h line hline)]
    rw [layout, hlines, hsame]
    rfl

/-- A mnemonic of eight letters runs into its operand, and the next time the two are one word.  A
    note behind a label loses the label, and the next time it has one of its own. -/
theorem layout_layout_iff_wide :
    layout (layout "cvtsi2sd xmm0, rax") ≠ layout "cvtsi2sd xmm0, rax" ∧
      layout (layout "x:;;;a: b") ≠ layout "x:;;;a: b" := by
  constructor
  · rw [Ne, layout_layout_iff]
    intro h
    have hsettled := h "cvtsi2sd xmm0, rax".toList (by decide +kernel)
    rw [Settled, if_neg (by decide +kernel)] at hsettled
    rcases hsettled with hshort | hword | ⟨hcomment, -, -⟩
    · exact absurd hshort (by decide +kernel)
    · cases hword ' ' (by decide +kernel)
    · exact hcomment (by decide +kernel)
  · rw [Ne, layout_layout_iff]
    intro h
    have hsettled := h "x:;;;a: b".toList (by decide +kernel)
    rw [Settled, if_pos (by decide +kernel)] at hsettled
    exact hsettled (by decide +kernel)

end ExprLang
