/-
  What laying out a text leaves as it is.

  A line of assembly text says four things: the label, the mnemonic, the operands and the comment.
  Blanks around them say nothing.

  * `AsmLine.of` reads a line;
  * `AsmLine.of_blanks`: blanks around a line say nothing;
  * `splitAt_operandColumns`, `AsmLine.ofCode_codeColumns`: what stands in columns is read again, if
    the mnemonic is narrower than its column;
  * `AsmLine.of_layoutLine`: a line that is laid out says what it said before;
  * `lines_layout`: a text that is laid out has the lines of the text, each laid out.
-/
import ExprLang.Proofs.ReservedBytes

namespace ExprLang

/-! ## Blanks -/

namespace Text

def Blank (cs : List Char) : Prop := ∀ c ∈ cs, isBlank c = true

variable {bs cs es : List Char}

theorem blank_nil : Blank [] := List.forall_mem_nil _

theorem blank_replicate (n : Nat) : Blank (List.replicate n ' ') := by
  intro c hc
  rw [List.eq_of_mem_replicate hc]
  rfl

theorem Blank.append (hb : Blank bs) (he : Blank es) : Blank (bs ++ es) :=
  List.forall_mem_append.2 ⟨hb, he⟩

theorem Blank.not_mem (hb : Blank bs) {c : Char} (hc : isBlank c = false) : c ∉ bs := by
  intro hmem
  cases hc.symm.trans (hb c hmem)

theorem trimLeft_blank (hb : Blank bs) : trimLeft bs = [] := List.dropWhile_eq_nil_iff.2 hb

theorem trimLeft_append_blank (cs : List Char) (he : Blank es) :
    trimLeft (cs ++ es) = trimLeft cs ∨ trimLeft (cs ++ es) = trimLeft cs ++ es := by
  rw [trimLeft, List.dropWhile_append]
  split
  · next h => exact .inl (by rw [trimLeft, List.isEmpty_iff.1 h]; exact trimLeft_blank he)
  · exact .inr rfl

theorem trimRight_append_blank (he : Blank es) : trimRight (cs ++ es) = trimRight cs := by
  have hes : Blank es.reverse := fun c hc => he c (List.mem_reverse.1 hc)
  rw [trimRight, List.reverse_append, List.dropWhile_append_of_pos hes]
  rfl

/-- Blanks around a text are cut off. -/
theorem trim_blanks (hb : Blank bs) (cs : List Char) (he : Blank es) :
    trim (bs ++ (cs ++ es)) = trim cs := by
  have hleft : trimLeft (bs ++ (cs ++ es)) = trimLeft (cs ++ es) :=
    List.dropWhile_append_of_pos hb
  rw [trim, hleft, trim]
  rcases trimLeft_append_blank cs he with h | h
  · rw [h]
  · rw [h, trimRight_append_blank he]

theorem blank_takeWhile (cs : List Char) : Blank (cs.takeWhile isBlank) :=
  List.all_eq_true.1 List.all_takeWhile

theorem exists_trimRight (cs : List Char) : ∃ es, Blank es ∧ trimRight cs ++ es = cs := by
  refine ⟨(cs.reverse.takeWhile isBlank).reverse, fun c hc => ?_, ?_⟩
  · exact blank_takeWhile _ c (List.mem_reverse.1 hc)
  · rw [trimRight, ← List.reverse_append, List.takeWhile_append_dropWhile, List.reverse_reverse]

theorem exists_trim (cs : List Char) :
    ∃ bs es, Blank bs ∧ Blank es ∧ bs ++ (trim cs ++ es) = cs := by
  obtain ⟨es, he, h⟩ := exists_trimRight (trimLeft cs)
  refine ⟨cs.takeWhile isBlank, es, blank_takeWhile cs, he, ?_⟩
  rw [trim, h, trimLeft, List.takeWhile_append_dropWhile]

theorem mem_of_mem_trim {c : Char} (h : c ∈ trim cs) : c ∈ cs := by
  obtain ⟨bs, es, -, -, hcs⟩ := exists_trim cs
  rw [← hcs]
  simp [h]

theorem forall_trim {P : Char → Prop} (h : ∀ c ∈ cs, P c) : ∀ c ∈ trim cs, P c :=
  fun c hc => h c (mem_of_mem_trim hc)

/-- A trimmed text does not start with a blank. -/
theorem trimLeft_trim (cs : List Char) : trimLeft (trim cs) = trim cs := by
  cases htrim : trim cs with
  | nil => rfl
  | cons c ds =>
    obtain ⟨es, -, h⟩ := exists_trimRight (trimLeft cs)
    have hleft : cs.dropWhile isBlank = c :: (ds ++ es) := by
      rw [← List.cons_append, ← htrim]
      exact h.symm
    have hc := List.head_dropWhile_not isBlank (l := cs) (by simp [hleft])
    simp only [hleft, List.head_cons] at hc
    exact List.dropWhile_cons_of_neg (by simp [hc])

theorem trim_trim (cs : List Char) : trim (trim cs) = trim cs := by
  obtain ⟨bs, es, hb, he, h⟩ := exists_trim cs
  rw [← trim_blanks hb (trim cs) he, h]

theorem splitAt_blanks {sep : Char} (hsep : isBlank sep = false) {bs es : List Char}
    (hb : Blank bs) (cs : List Char) (he : Blank es) :
    (splitAt sep (bs ++ (cs ++ es))).map trim = (splitAt sep cs).map trim := by
  obtain ⟨part, parts, hleft, h⟩ := splitAt_append_left (cs ++ es) (hb.not_mem hsep)
  obtain ⟨parts', part', hcs, hright⟩ := splitAt_append_right (he.not_mem hsep) cs
  have hfirst : trim (bs ++ part) = trim part := by simpa using trim_blanks hb part blank_nil
  have hlast : trim (part' ++ es) = trim part' := by simpa using trim_blanks blank_nil part' he
  rw [h, List.map_cons, hfirst, ← List.map_cons, ← hleft, hright, hcs, List.map_append,
    List.map_append, List.map_singleton, List.map_singleton, hlast]

end Text

/-! ## What a line says -/

/-- A line of assembly text, read.  Where there is no comment, its text is empty. -/
structure AsmLine where
  label : Option (List Char)
  mnemonic : List Char
  operands : List (List Char)
  comment : List Char
deriving DecidableEq

namespace AsmLine

open Text (Blank trim trimLeft isBlank splitAt cut? blank_nil trim_blanks exists_trim)

/-- The operands in a text: what stands between commas, unless that is just blanks. -/
def operandsOf (cs : List Char) : List (List Char) :=
  let parts := (splitAt ',' cs).map trim
  if parts = [[]] then [] else parts

/-- A line with an instruction: a word, and the operands behind it. -/
def ofCode (label : Option (List Char)) (comment code : List Char) : AsmLine where
  label := label
  mnemonic := (trimLeft code).takeWhile (!isBlank ·)
  operands := operandsOf ((trimLeft code).dropWhile (!isBlank ·))
  comment := trim comment

/-- A line by its label and the rest: a comment stands behind the first semicolon. -/
def ofRest (label : Option (List Char)) (rest : List Char) : AsmLine :=
  match cut? ';' rest with
  | some (code, comment) => ofCode label comment code
  | none => ofCode label [] rest

/-- A line, read: a label stands before the first colon. -/
def of (line : List Char) : AsmLine :=
  match cut? ':' line with
  | some (label, rest) => ofRest (some (trim label)) rest
  | none => ofRest none line

example : of "main:  mov   rax,qword 8   ; room ".toList =
    ⟨some "main".toList, "mov".toList, ["rax".toList, "qword 8".toList], "room".toList⟩ := by
  decide

variable {label : Option (List Char)} {comment bs cs es : List Char}

theorem ofRest_of_not_mem (h : ';' ∉ cs) : ofRest label cs = ofCode label [] cs := by
  rw [ofRest, Text.cut?_of_not_mem h]

theorem ofRest_append (h : ';' ∉ cs) (comment : List Char) :
    ofRest label (cs ++ ';' :: comment) = ofCode label comment cs := by
  rw [ofRest, Text.cut?_append comment h]

theorem of_of_not_mem (h : ':' ∉ cs) : of cs = ofRest none cs := by
  rw [of, Text.cut?_of_not_mem h]

theorem of_append (h : ':' ∉ cs) (rest : List Char) :
    of (cs ++ ':' :: rest) = ofRest (some (trim cs)) rest := by
  rw [of, Text.cut?_append rest h]

/-! ## Blanks say nothing -/

theorem operandsOf_blanks (hb : Blank bs) (cs : List Char) (he : Blank es) :
    operandsOf (bs ++ (cs ++ es)) = operandsOf cs := by
  have hparts := Text.splitAt_blanks (show isBlank ',' = false from rfl) hb cs he
  simp only [operandsOf, hparts]

/-- Blanks behind a text are behind the rest of it, not in its first word. -/
theorem word_append_blank (he : Blank es) : ∀ cs : List Char,
    (cs ++ es).takeWhile (!isBlank ·) = cs.takeWhile (!isBlank ·) ∧
      (cs ++ es).dropWhile (!isBlank ·) = cs.dropWhile (!isBlank ·) ++ es
  | [] => by
    cases es with
    | nil => exact ⟨rfl, rfl⟩
    | cons e es => simp [he e (.head es)]
  | c :: cs => by
    obtain ⟨htake, hdrop⟩ := word_append_blank he cs
    cases hc : isBlank c <;> simp [hc, htake, hdrop]

theorem ofCode_blanks (hb : Blank bs) (cs : List Char) (he : Blank es) :
    ofCode label comment (bs ++ (cs ++ es)) = ofCode label comment cs := by
  have hleft : trimLeft (bs ++ (cs ++ es)) = trimLeft (cs ++ es) :=
    List.dropWhile_append_of_pos hb
  rw [ofCode, hleft]
  rcases Text.trimLeft_append_blank cs he with h | h
  · rw [h]
    rfl
  · obtain ⟨htake, hdrop⟩ := word_append_blank he (trimLeft cs)
    have hops : operandsOf ((trimLeft cs).dropWhile (!isBlank ·) ++ es) =
        operandsOf ((trimLeft cs).dropWhile (!isBlank ·)) := by
      simpa using operandsOf_blanks blank_nil _ he
    rw [h, htake, hdrop, hops]
    rfl

theorem ofRest_blanks (hb : Blank bs) (cs : List Char) (he : Blank es) :
    ofRest label (bs ++ (cs ++ es)) = ofRest label cs := by
  have hbs : ';' ∉ bs := hb.not_mem rfl
  have hes : ';' ∉ es := he.not_mem rfl
  rcases Text.cut?_cases ';' cs with ⟨h, -⟩ | ⟨code, comment, h, rfl, -⟩
  · rw [ofRest_of_not_mem (by simp [hbs, h, hes]), ofRest_of_not_mem h, ofCode_blanks hb cs he]
  · have hcode : ofCode label (comment ++ es) (bs ++ code) = ofCode label comment code := by
      have htrim : trim (comment ++ es) = trim comment := by
        simpa using trim_blanks blank_nil comment he
      have hblanks : ofCode label comment (bs ++ code) = ofCode label comment code := by
        simpa using ofCode_blanks hb code blank_nil
      rw [← hblanks, ofCode, htrim]
      rfl
    have hsplit : bs ++ (code ++ ';' :: comment ++ es) =
        (bs ++ code) ++ ';' :: (comment ++ es) := by simp
    rw [hsplit, ofRest_append (by simp [hbs, h]), ofRest_append h, hcode]

/-- **Blanks around a line say nothing.** -/
theorem of_blanks (hb : Blank bs) (cs : List Char) (he : Blank es) :
    of (bs ++ (cs ++ es)) = of cs := by
  have hbs : ':' ∉ bs := hb.not_mem rfl
  have hes : ':' ∉ es := he.not_mem rfl
  rcases Text.cut?_cases ':' cs with ⟨h, -⟩ | ⟨name, rest, h, rfl, -⟩
  · rw [of_of_not_mem (by simp [hbs, h, hes]), of_of_not_mem h, ofRest_blanks hb cs he]
  · have hsplit : bs ++ (name ++ ':' :: rest ++ es) = (bs ++ name) ++ ':' :: (rest ++ es) := by
      simp
    have htrim : trim (bs ++ name) = trim name := by simpa using trim_blanks hb name blank_nil
    have hrest : ofRest (some (trim name)) (rest ++ es) = ofRest (some (trim name)) rest := by
      simpa using ofRest_blanks blank_nil rest he
    rw [hsplit, of_append (by simp [hbs, h]), of_append h, htrim, hrest]

theorem of_trim (line : List Char) : of (trim line) = of line := by
  obtain ⟨bs, es, hb, he, h⟩ := exists_trim line
  rw [← of_blanks hb (trim line) he, h]

end AsmLine

/-! ## Columns -/

open Text (Blank trim trimLeft isBlank splitAt blank_nil blank_replicate trim_blanks)

theorem padRight_eq (width : Nat) (cs : List Char) :
    ∃ es, Blank es ∧ Text.padRight width cs = cs ++ es :=
  ⟨_, blank_replicate _, rfl⟩

theorem column_eq {cs : List Char} (h : cs.length < 8) :
    ∃ es, Blank es ∧ column cs = cs ++ ' ' :: es := by
  obtain ⟨n, hn⟩ := Nat.exists_eq_succ_of_ne_zero (Nat.sub_ne_zero_of_lt h)
  refine ⟨List.replicate n ' ', blank_replicate n, ?_⟩
  rw [column, Text.padRight, columnWidth, hn, List.replicate_succ]

theorem codeColumns_cases (code : List Char) :
    ∃ word, (∀ c ∈ word, isBlank c = false) ∧
      (trim code = word ∧ codeColumns code = column word ∨
        ∃ b rest, word ≠ [] ∧ isBlank b = true ∧ trim code = word ++ b :: rest ∧
          codeColumns code = column word ++ operandColumns (splitAt ',' (trim (b :: rest)))) := by
  have hsplit : (trim code).takeWhile (!isBlank ·) ++ (trim code).dropWhile (!isBlank ·) =
    trim code := List.takeWhile_append_dropWhile
  have hword : ∀ c ∈ (trim code).takeWhile (!isBlank ·), isBlank c = false := fun c hc => by
    simpa using List.all_eq_true.1 List.all_takeWhile c hc
  refine ⟨_, hword, ?_⟩
  cases hrest : (trim code).dropWhile (!isBlank ·) with
  | nil =>
    rw [hrest, List.append_nil] at hsplit
    exact .inl ⟨hsplit.symm, by simp only [codeColumns, hrest]⟩
  | cons b rest =>
    have hb : isBlank b = true := by
      have hhead := List.head_dropWhile_not (!isBlank ·) (l := trim code) (by simp [hrest])
      simpa [hrest] using hhead
    rw [hrest] at hsplit
    refine .inr ⟨b, rest, fun hnil => ?_, hb, hsplit.symm, by simp only [codeColumns, hrest]⟩
    -- A trimmed text does not start with a blank.
    rw [hnil, List.nil_append] at hsplit
    have hleft := Text.trimLeft_trim code
    rw [← hsplit, trimLeft, List.dropWhile_cons_of_pos hb] at hleft
    have hlen := (List.dropWhile_suffix isBlank (l := rest)).length_le
    rw [hleft] at hlen
    exact absurd hlen (by simp)

section
variable {P : Char → Prop} (hblank : P ' ') (hcomma : P ',')
include hblank

theorem forall_padRight {cs : List Char} (h : ∀ c ∈ cs, P c) (width : Nat) :
    ∀ c ∈ Text.padRight width cs, P c :=
  List.forall_mem_append.2 ⟨h, fun _ hc => List.eq_of_mem_replicate hc ▸ hblank⟩

include hcomma

theorem forall_operandColumns : ∀ {parts : List (List Char)}, (∀ part ∈ parts, ∀ c ∈ part, P c) →
    ∀ c ∈ operandColumns parts, P c
  | [], _ => List.forall_mem_nil _
  | [part], h => forall_padRight hblank (Text.forall_trim (h part (.head _))) _
  | part :: next :: parts, h => by
    obtain ⟨hpart, hparts⟩ := List.forall_mem_cons.1 h
    have hcolumn : ∀ c ∈ trim part ++ [','], P c :=
      List.forall_mem_append.2 ⟨Text.forall_trim hpart, List.forall_mem_singleton.2 hcomma⟩
    exact List.forall_mem_append.2 ⟨forall_padRight hblank hcolumn _, forall_operandColumns hparts⟩

/-- Laying out an instruction adds nothing but blanks and commas. -/
theorem forall_codeColumns {code : List Char} (h : ∀ c ∈ code, P c) :
    ∀ c ∈ codeColumns code, P c := by
  have htrim := Text.forall_trim h
  obtain ⟨word, -, ⟨hcode, hcolumns⟩ | ⟨b, rest, -, -, hcode, hcolumns⟩⟩ := codeColumns_cases code
  · rw [hcode] at htrim
    rw [hcolumns]
    exact forall_padRight hblank htrim _
  · rw [hcode] at htrim
    obtain ⟨hword, hrest⟩ := List.forall_mem_append.1 htrim
    rw [hcolumns]
    refine List.forall_mem_append.2 ⟨forall_padRight hblank hword _,
      forall_operandColumns hblank hcomma fun part hpart c hc => ?_⟩
    exact Text.forall_trim hrest c (Text.mem_of_mem_splitAt hpart hc)

end

theorem splitAt_operandColumns : ∀ {parts : List (List Char)}, parts ≠ [] →
    (∀ part ∈ parts, ',' ∉ part) →
    (splitAt ',' (operandColumns parts)).map trim = parts.map trim
  | [part], _, h => by
    obtain ⟨es, he, hcolumn⟩ := padRight_eq columnWidth (trim part)
    have hes : ',' ∉ es := he.not_mem rfl
    have hpart : ',' ∉ trim part ++ es := by
      simp [mt Text.mem_of_mem_trim (h part (.head _)), hes]
    have htrim : trim (trim part ++ es) = trim (trim part) := by
      simpa using trim_blanks blank_nil (trim part) he
    rw [operandColumns, column, hcolumn, Text.splitAt_of_not_mem hpart, List.map_singleton, htrim,
      Text.trim_trim]
    rfl
  | part :: next :: parts, _, h => by
    obtain ⟨hpart, hparts⟩ := List.forall_mem_cons.1 h
    obtain ⟨es, he, hcolumn⟩ := padRight_eq columnWidth (trim part ++ [','])
    have hsplit : operandColumns (part :: next :: parts) =
        trim part ++ ',' :: (es ++ operandColumns (next :: parts)) := by
      rw [operandColumns, column, hcolumn]
      · simp
      · simp
    have hblanks : (splitAt ',' (es ++ operandColumns (next :: parts))).map trim =
        (splitAt ',' (operandColumns (next :: parts))).map trim := by
      simpa using Text.splitAt_blanks (show isBlank ',' = false from rfl) he _ blank_nil
    rw [hsplit, Text.splitAt_append _ (mt Text.mem_of_mem_trim hpart), List.map_cons, hblanks,
      splitAt_operandColumns (by simp) hparts, Text.trim_trim]
    rfl

namespace AsmLine

variable {label : Option (List Char)} {comment : List Char}

theorem operandsOf_operandColumns (rest : List Char) :
    operandsOf (operandColumns (splitAt ',' (trim rest))) = operandsOf rest := by
  obtain ⟨bs, es, hb, he, h⟩ := Text.exists_trim rest
  have hparts := Text.splitAt_blanks (show isBlank ',' = false from rfl) hb (trim rest) he
  have hcolumns := splitAt_operandColumns (Text.splitAt_ne_nil ',' (trim rest)) fun _ =>
    Text.not_mem_of_mem_splitAt
  rw [h] at hparts
  simp only [operandsOf, hcolumns, hparts]

/-- A word is the mnemonic, and the operands stand behind it. -/
theorem ofCode_word {word rest : List Char} (hne : word ≠ [])
    (hword : ∀ c ∈ word, isBlank c = false) {b : Char} (hb : isBlank b = true) :
    ofCode label comment (word ++ b :: rest) =
      ⟨label, word, operandsOf (b :: rest), trim comment⟩ := by
  have hleft : trimLeft (word ++ b :: rest) = word ++ b :: rest := by
    obtain ⟨c, cs, rfl⟩ := List.exists_cons_of_ne_nil hne
    exact List.dropWhile_cons_of_neg (by simp [hword c (.head cs)])
  have hnot : ∀ c ∈ word, (!isBlank c) = true := fun c hc => by simp [hword c hc]
  rw [ofCode, hleft, List.takeWhile_append_of_pos hnot, List.dropWhile_append_of_pos hnot,
    List.takeWhile_cons_of_neg (by simp [hb]), List.dropWhile_cons_of_neg (by simp [hb]),
    List.append_nil]

theorem ofCode_codeColumns {code : List Char}
    (h : (ofCode label comment code).mnemonic.length < 8) :
    ofCode label comment (codeColumns code) = ofCode label comment code := by
  have htrim : ofCode label comment (trim code) = ofCode label comment code := by
    obtain ⟨bs, es, hb, he, hcode⟩ := Text.exists_trim code
    rw [← ofCode_blanks hb (trim code) he, hcode]
  rw [← htrim] at h ⊢
  obtain ⟨word, hword, ⟨hcode, hcolumns⟩ | ⟨b, rest, hne, hb, hcode, hcolumns⟩⟩ :=
    codeColumns_cases code
  · obtain ⟨es, he, hpad⟩ := padRight_eq columnWidth word
    rw [hcolumns, hcode, column, hpad]
    simpa using ofCode_blanks blank_nil word he
  · rw [hcode, ofCode_word hne hword hb] at h ⊢
    obtain ⟨es, he, hcolumn⟩ := column_eq h
    have hspace : Blank [' '] := blank_replicate 1
    have hops : operandsOf (' ' :: (es ++ operandColumns (splitAt ',' (trim (b :: rest))))) =
        operandsOf (b :: rest) := by
      rw [← operandsOf_operandColumns (b :: rest)]
      simpa using operandsOf_blanks (hspace.append he) _ blank_nil
    rw [hcolumns, hcolumn, List.append_assoc, List.cons_append, ofCode_word hne hword rfl, hops]

/-! ## Lines -/

/-- What stands behind the label of a line, laid out: an instruction in columns, maybe a comment. -/
inductive Laid (rest : List Char) : List Char → Prop where
  | code {code : List Char} (hcode : ';' ∉ code) (hsub : code ⊆ rest)
      (h : ∀ label, ofRest label rest = ofCode label [] code) : Laid rest (codeColumns code)
  | comment {code comment : List Char} (hcode : ';' ∉ code) (hsub : code ⊆ rest)
      (hcomment : comment ⊆ rest) (h : ∀ label, ofRest label rest = ofCode label comment code)
      (n : Nat) : Laid rest (codeColumns code ++ (List.replicate n ' ' ++ ';' :: comment))

theorem exists_laid (line : List Char)
    (h : [';', ';', ';'].isPrefixOf (labelColumn (trim line)).2 = false) :
    ∃ tail, layoutLine line = (labelColumn (trim line)).1 ++ tail ∧
      Laid (labelColumn (trim line)).2 tail := by
  obtain ⟨name, rest, hlabel⟩ : ∃ name rest, labelColumn (trim line) = (name, rest) := ⟨_, _, rfl⟩
  obtain ⟨bs, es, hb, he, hrest⟩ := Text.exists_trim rest
  have hread : ∀ label, ofRest label rest = ofRest label (trim rest) := fun label => by
    rw [← ofRest_blanks hb (trim rest) he, hrest]
  rw [hlabel] at h ⊢
  simp only at h
  rw [layoutLine, hlabel]
  simp only [h]
  rcases Text.cut?_cases ';' (trim rest) with ⟨hnot, hcut⟩ | ⟨code, comment, hnot, hcode, hcut⟩
  · have hrest : ';' ∉ rest := by
      have hbs : ';' ∉ bs := hb.not_mem rfl
      have hes : ';' ∉ es := he.not_mem rfl
      rw [← hrest]
      simp [hnot, hbs, hes]
    refine ⟨codeColumns rest, ?_, .code hrest (List.Subset.refl rest) fun label =>
      ofRest_of_not_mem hrest⟩
    simp only [splitComment, hcut]
    rfl
  · have hread' : ∀ label, ofRest label rest = ofCode label comment code := fun label => by
      rw [hread, hcode, ofRest_append hnot]
    have hsub : code ++ ';' :: comment ⊆ rest := fun c hc => by
      rw [← hcode] at hc
      exact Text.mem_of_mem_trim hc
    obtain ⟨hsubcode, hsubcomment⟩ := List.append_subset.1 hsub
    simp only [splitComment, hcut]
    cases comment with
    | nil => exact ⟨codeColumns code, rfl, .code hnot hsubcode hread'⟩
    | cons c cs =>
      refine ⟨_, ?_, .comment hnot hsubcode (List.cons_subset.1 hsubcomment).2 hread'
        (40 - (name ++ codeColumns code).length)⟩
      simp only [Text.padRight, List.append_assoc]
      rfl

theorem Laid.forall_mem {rest tail : List Char} (h : Laid rest tail) {P : Char → Prop}
    (hblank : P ' ') (hcomma : P ',') (hsemicolon : P ';') (hrest : ∀ c ∈ rest, P c) :
    ∀ c ∈ tail, P c := by
  cases h with
  | code _ hsub _ => exact forall_codeColumns hblank hcomma fun c hc => hrest c (hsub hc)
  | comment _ hsub hcomment _ n =>
    refine List.forall_mem_append.2
      ⟨forall_codeColumns hblank hcomma fun c hc => hrest c (hsub hc), ?_⟩
    rw [List.forall_mem_append, List.forall_mem_cons]
    exact ⟨fun _ hc => List.eq_of_mem_replicate hc ▸ hblank, hsemicolon,
      fun c hc => hrest c (hcomment hc)⟩

theorem Laid.ofRest_eq {rest tail bs : List Char} (h : Laid rest tail) (hb : Blank bs)
    (hshort : (ofRest label rest).mnemonic.length < 8) :
    ofRest label (bs ++ tail) = ofRest label rest := by
  have hcolumns : ∀ {code : List Char}, ';' ∉ code → ';' ∉ codeColumns code := fun hcode =>
    List.forall_mem_ne'.1
      (forall_codeColumns (by decide) (by decide) (List.forall_mem_ne'.2 hcode))
  have hbs : ';' ∉ bs := hb.not_mem rfl
  cases h with
  | @code code hcode _ h =>
    rw [h] at hshort ⊢
    have hblanks : ofCode label [] (bs ++ codeColumns code) =
        ofCode label [] (codeColumns code) := by
      simpa using ofCode_blanks hb (codeColumns code) blank_nil
    rw [ofRest_of_not_mem (by simp [hbs, hcolumns hcode]), hblanks, ofCode_codeColumns hshort]
  | @comment code comment hcode _ _ h n =>
    have he := blank_replicate n
    have hes : ';' ∉ List.replicate n ' ' := he.not_mem rfl
    have hsplit : bs ++ (codeColumns code ++ (List.replicate n ' ' ++ ';' :: comment)) =
        (bs ++ (codeColumns code ++ List.replicate n ' ')) ++ ';' :: comment := by simp
    rw [h] at hshort ⊢
    rw [hsplit, ofRest_append (by simp [hbs, hcolumns hcode]), ofCode_blanks hb _ he,
      ofCode_codeColumns hshort]

/-- **A line that is laid out says what it said before**, if its mnemonic is narrower than the
    column, and no comment of three semicolons stands behind a label. -/
theorem of_layoutLine {line : List Char}
    (hlabel : ∀ name rest, Text.cut? ':' (trim line) = some (name, rest) →
      [';', ';', ';'].isPrefixOf rest = false)
    (hshort : (of line).mnemonic.length < 8) : of (layoutLine line) = of line := by
  rw [← of_trim line] at hshort ⊢
  rcases Text.cut?_cases ':' (trim line) with ⟨hnot, hcut⟩ | ⟨name, rest, hnot, hline, hcut⟩
  · have hcolumn : labelColumn (trim line) = (column [], trim line) := by rw [labelColumn, hcut]
    rw [of_of_not_mem hnot] at hshort
    by_cases hnote : [';', ';', ';'].isPrefixOf (trim line) = true
    · have hlaid : layoutLine line = List.replicate 4 ' ' ++ trim line := by
        rw [layoutLine, hcolumn]
        exact if_pos hnote
      rw [hlaid]
      simpa using of_blanks (blank_replicate 4) (trim line) blank_nil
    · obtain ⟨tail, hlaid, htail⟩ := exists_laid line
        (by rw [hcolumn]; exact Bool.eq_false_iff.2 hnote)
      rw [hcolumn] at hlaid htail
      have htailnot : ':' ∉ column [] ++ tail := by
        refine List.forall_mem_ne'.1 (List.forall_mem_append.2
          ⟨forall_padRight (by decide) (List.forall_mem_nil _) _, ?_⟩)
        exact htail.forall_mem (by decide) (by decide) (by decide) (List.forall_mem_ne'.2 hnot)
      rw [hlaid, of_of_not_mem htailnot, of_of_not_mem hnot]
      exact htail.ofRest_eq (blank_replicate 8) hshort
  · have hcolumn : labelColumn (trim line) = (column (name ++ [':', ' ']), rest) := by
      rw [labelColumn, hcut]
    obtain ⟨tail, hlaid, htail⟩ := exists_laid line (by rw [hcolumn]; exact hlabel name rest hcut)
    obtain ⟨es, he, hpad⟩ := padRight_eq columnWidth (name ++ [':', ' '])
    have hspace : Blank [' '] := blank_replicate 1
    have hsplit : layoutLine line = name ++ ':' :: ([' '] ++ es ++ tail) := by
      rw [hlaid, hcolumn, column, hpad]
      simp
    rw [hcolumn] at htail
    rw [hline, of_append hnot] at hshort ⊢
    rw [hsplit, of_append hnot]
    exact htail.ofRest_eq (hspace.append he) hshort

end AsmLine

/-! ## Texts -/

/-- Laying out a line adds nothing but blanks, commas, colons and semicolons. -/
theorem forall_layoutLine {P : Char → Prop} (hblank : P ' ') (hcomma : P ',') (hcolon : P ':')
    (hsemicolon : P ';') {line : List Char} (h : ∀ c ∈ line, P c) :
    ∀ c ∈ layoutLine line, P c := by
  have hlabel : (∀ c ∈ (labelColumn (trim line)).1, P c) ∧
      ∀ c ∈ (labelColumn (trim line)).2, P c := by
    have htrim := Text.forall_trim h
    rw [labelColumn]
    rcases Text.cut?_cases ':' (trim line) with ⟨-, hcut⟩ | ⟨name, rest, -, hline, hcut⟩
    · rw [hcut]
      exact ⟨forall_padRight hblank (List.forall_mem_nil _) _, htrim⟩
    · rw [hline, List.forall_mem_append, List.forall_mem_cons] at htrim
      rw [hcut]
      refine ⟨forall_padRight hblank (List.forall_mem_append.2 ⟨htrim.1, ?_⟩) _, htrim.2.2⟩
      exact List.forall_mem_cons.2 ⟨hcolon, List.forall_mem_singleton.2 hblank⟩
  by_cases hnote : [';', ';', ';'].isPrefixOf (labelColumn (trim line)).2 = true
  · rw [layoutLine]
    simp only [hnote, if_true]
    exact List.forall_mem_append.2
      ⟨fun _ hc => List.eq_of_mem_replicate hc ▸ hblank, hlabel.2⟩
  · obtain ⟨tail, hlaid, htail⟩ := AsmLine.exists_laid line (Bool.eq_false_iff.2 hnote)
    rw [hlaid]
    exact List.forall_mem_append.2
      ⟨hlabel.1, htail.forall_mem hblank hcomma hsemicolon hlabel.2⟩

namespace Text

theorem not_lineEnd_of_mem_linesFrom {line cs l : List Char} {c : Char}
    (hline : ∀ c ∈ line, isLineEnd c = false) (hl : l ∈ linesFrom line cs) (hc : c ∈ l) :
    isLineEnd c = false := by
  fun_induction linesFrom line cs with
  | case1 line => cases hl
  | case2 line =>
    rw [List.mem_singleton.1 hl, List.mem_reverse] at hc
    exact hline c hc
  | case3 line cs ih =>
    rcases List.mem_cons.1 hl with rfl | hl
    · exact hline c (List.mem_reverse.1 hc)
    · exact ih (by simp) hl
  | case4 line d cs _ _ ih =>
    rcases List.mem_cons.1 hl with rfl | hl
    · exact hline c (List.mem_reverse.1 hc)
    · exact ih (by simp) hl
  | case5 line d cs _ hend ih =>
    exact ih (List.forall_mem_cons.2 ⟨by simpa using hend, hline⟩) hl

end Text

/-- **A text that is laid out has the lines of the text, each laid out.** -/
theorem lines_layout (text : String) :
    Text.lines (layout text).toList = (Text.lines text.toList).map layoutLine := by
  have hends : ∀ line ∈ Text.lines text.toList, ∀ c ∈ layoutLine line,
      Text.isLineEnd c = false := by
    intro line hline
    apply forall_layoutLine
    case h => exact fun c => Text.not_lineEnd_of_mem_linesFrom (List.forall_mem_nil _) hline
    all_goals rfl
  rw [layout, String.toList_ofList]
  generalize Text.lines text.toList = ls at hends
  induction ls with
  | nil => rfl
  | cons line ls ih =>
    obtain ⟨hline, hls⟩ := List.forall_mem_cons.1 hends
    rw [layoutLines, List.flatMap_cons, List.append_assoc, List.singleton_append, Text.lines,
      Text.linesFrom_line _ [] hline, List.map_cons, ← ih hls]
    rfl

end ExprLang
