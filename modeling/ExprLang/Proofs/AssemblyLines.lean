/-
  The lines of generated assembly text.

  Every instruction becomes lines with a narrow mnemonic and without a colon, and a label becomes a
  line with just a colon.  So nothing that they say gets lost when they are laid out.

  * `LineState` follows a text from line to line, and stops at a colon, or if the first word of a
    line is as wide as a column; `InColumns`: it gets to the end of the text;
  * `SaysSame`: laid out, every line of the text says what it said before, and
    `InColumns.saysSame`;
  * `Inline`: a text has no colon and no line end, so it can be an operand;
  * `CMa.body_inColumns`, `MaMa.body_inColumns`: the templates of the instructions;
  * `CMa.whole_text`, `MaMa.whole_text`: their whole texts.
-/
import ExprLang.Proofs.LayoutFields
import ExprLang.Proofs.Listings
import ExprLang.Proofs.Positions

namespace ExprLang

open Text (isBlank isLineEnd trim trimLeft Blank)

variable {cs ds : List Char} {s t : LineState} {c : Char}

/-! ## Reading line by line -/

/-- Where a text has been read to: among the blanks that a line starts with, behind so many
    characters of its first word, or behind that word. -/
inductive LineState where
  | start
  | word (length : Nat)
  | rest
deriving DecidableEq

namespace LineState

/-- Reads a character.  There may be no colon, and no word of eight characters that a line starts
    with. -/
def next (s : LineState) (c : Char) : Option LineState :=
  if isLineEnd c then some start
  else if c = ':' then none
  else match s with
    | start => some (if isBlank c then start else word 1)
    | word n => if isBlank c then some rest else if n < 7 then some (word (n + 1)) else none
    | rest => some rest

/-- Reads a text. -/
def after (s : LineState) (cs : List Char) : Option LineState := cs.foldlM next s

theorem after_cons (s : LineState) (c : Char) (cs : List Char) :
    s.after (c :: cs) = (s.next c).bind (·.after cs) := List.foldlM_cons

theorem after_append (s : LineState) (cs ds : List Char) :
    s.after (cs ++ ds) = (s.after cs).bind (·.after ds) := List.foldlM_append

theorem next_lineEnd (s : LineState) {c : Char} (h : isLineEnd c = true) : s.next c = some start :=
  if_pos h

end LineState

open LineState (start word rest after_cons after_append next_lineEnd)

/-- The text can be read to its end. -/
def InColumns (cs : List Char) : Prop := ∃ s, start.after cs = some s

instance (cs : List Char) : Decidable (InColumns cs) :=
  decidable_of_iff ((start.after cs).isSome = true) Option.isSome_iff_exists

theorem InColumns.of_append (h : InColumns (cs ++ ds)) : InColumns cs := by
  obtain ⟨s, h⟩ := h
  rw [after_append, Option.bind_eq_some_iff] at h
  obtain ⟨t, ht, -⟩ := h
  exact ⟨t, ht⟩

theorem not_mem_of_after (h : s.after cs = some t) : ':' ∉ cs := by
  induction cs generalizing s with
  | nil => simp
  | cons c cs ih =>
    rw [after_cons, Option.bind_eq_some_iff] at h
    obtain ⟨u, hu, h⟩ := h
    rw [List.mem_cons, not_or]
    refine ⟨?_, ih h⟩
    rintro rfl
    cases hu

theorem isBlank_of_isLineEnd (h : isLineEnd c = true) : isBlank c = true := by
  simp only [isLineEnd, isBlank, Bool.or_eq_true, Bool.and_eq_true, decide_eq_true_eq,
    beq_iff_eq] at h ⊢
  omega

theorem length_le_of_after_word {n : Nat} (h : (word n).after cs = some t) (hn : n ≤ 7) :
    n + (cs.takeWhile (!isBlank ·)).length ≤ 7 := by
  induction cs generalizing n with
  | nil => exact hn
  | cons c cs ih =>
    cases hc : isBlank c with
    | true => simpa [hc] using hn
    | false =>
      have hend : isLineEnd c = false := by
        by_contra hend
        cases hc.symm.trans (isBlank_of_isLineEnd (by simpa using hend))
      rw [after_cons, Option.bind_eq_some_iff] at h
      obtain ⟨u, hu, h⟩ := h
      simp only [LineState.next, hend, hc, Bool.false_eq_true, if_false] at hu
      split at hu
      · cases hu
      · split at hu
        · obtain rfl := Option.some.inj hu
          have := ih h (by omega)
          simp only [List.takeWhile_cons, hc, Bool.not_false, if_true, List.length_cons]
          omega
        · cases hu

theorem next_start (h : start.next c = some s) : s = if isBlank c then start else word 1 := by
  rw [LineState.next] at h
  split at h
  · next hend =>
    rw [if_pos (isBlank_of_isLineEnd hend)]
    exact (Option.some.inj h).symm
  · split at h
    · cases h
    · exact (Option.some.inj h).symm

theorem InColumns.length_word (h : InColumns cs) :
    ((trimLeft cs).takeWhile (!isBlank ·)).length < 8 := by
  obtain ⟨t, h⟩ := h
  induction cs with
  | nil => simp [trimLeft]
  | cons c cs ih =>
    rw [after_cons, Option.bind_eq_some_iff] at h
    obtain ⟨s, hs, h⟩ := h
    obtain rfl := next_start hs
    cases hc : isBlank c with
    | true =>
      rw [trimLeft, List.dropWhile_cons_of_pos hc]
      exact ih (by simpa [hc] using h)
    | false =>
      have hword := length_le_of_after_word (n := 1) (by simpa [hc] using h) (by decide)
      rw [trimLeft, List.dropWhile_cons_of_neg (by simp [hc]),
        List.takeWhile_cons_of_pos (by simp [hc]), List.length_cons]
      omega

theorem inColumns_of_mem_linesFrom {line l : List Char} (hline : start.after line.reverse = some s)
    (h : s.after cs = some t) (hl : l ∈ Text.linesFrom line cs) : InColumns l := by
  fun_induction Text.linesFrom line cs generalizing s with
  | case1 line => cases hl
  | case2 line =>
    obtain rfl := List.mem_singleton.1 hl
    exact ⟨s, hline⟩
  | case3 line cs ih =>
    rcases List.mem_cons.1 hl with rfl | hl
    · exact ⟨s, hline⟩
    · exact ih rfl h hl
  | case4 line c cs _ hend ih =>
    rcases List.mem_cons.1 hl with rfl | hl
    · exact ⟨s, hline⟩
    · rw [after_cons, next_lineEnd s hend] at h
      exact ih rfl h hl
  | case5 line c cs _ _ ih =>
    rw [after_cons, Option.bind_eq_some_iff] at h
    obtain ⟨u, hu, h⟩ := h
    refine ih ?_ h hl
    rw [List.reverse_cons, after_append, hline, Option.bind_some, after_cons, hu]
    rfl

/-! ## Lines that say the same -/

/-- Laid out, every line of the text says what it said before. -/
def SaysSame (cs : List Char) : Prop :=
  ∀ line ∈ Text.lines cs, AsmLine.of (layoutLine line) = AsmLine.of line

theorem InColumns.of_layoutLine {line : List Char} (h : InColumns line) :
    AsmLine.of (layoutLine line) = AsmLine.of line := by
  have hnot : ':' ∉ line := by
    obtain ⟨s, hs⟩ := h
    exact not_mem_of_after hs
  refine AsmLine.of_layoutLine (fun name rest hcut => ?_) ?_
  · rw [Text.cut?_of_not_mem (mt Text.mem_of_mem_trim hnot)] at hcut
    cases hcut
  · rw [AsmLine.of_of_not_mem hnot]
    -- The mnemonic is the first word of what stands before the comment.
    rcases Text.cut?_cases ';' line with ⟨hsemi, -⟩ | ⟨code, comment, hsemi, rfl, -⟩
    · rw [AsmLine.ofRest_of_not_mem hsemi]
      exact h.length_word
    · rw [AsmLine.ofRest_append hsemi]
      exact h.of_append.length_word

theorem InColumns.saysSame (h : InColumns cs) : SaysSame cs := by
  obtain ⟨s, hs⟩ := h
  exact fun line hline => (inColumns_of_mem_linesFrom rfl hs hline).of_layoutLine

/-- Texts that end with their last line can be put together. -/
theorem SaysSame.append (hc : SaysSame (cs ++ ['\n'])) (hd : SaysSame ds) :
    SaysSame (cs ++ '\n' :: ds) := by
  obtain ⟨before, hlines⟩ := Text.linesFrom_append [] cs
  have hbefore : Text.lines (cs ++ ['\n']) = before := by
    rw [Text.lines, hlines []]
    exact List.append_nil before
  intro line hline
  rw [Text.lines, hlines] at hline
  rcases List.mem_append.1 hline with hline | hline
  · exact hc line (hbefore ▸ hline)
  · exact hd line hline

/-- The text is made of lines that say the same, laid out. -/
structure WholeLines (text : String) : Prop where
  ends : ∃ cs, text.toList = cs ++ ['\n']
  same : SaysSame text.toList

theorem saysSame_join : ∀ {texts : List String}, (∀ t ∈ texts, WholeLines t) →
    SaysSame (String.join texts).toList
  | [], _ => by simp [SaysSame, Text.lines, Text.linesFrom]
  | t :: ts, h => by
    obtain ⟨ht, hts⟩ := List.forall_mem_cons.1 h
    obtain ⟨cs, hcs⟩ := ht.ends
    have hsame := ht.same
    rw [hcs] at hsame
    rw [String.join_cons, String.toList_append, hcs, List.append_assoc]
    exact hsame.append (saysSame_join hts)

/-! ## Texts that stay in their line -/

/-- There is no colon and no line end in the text. -/
def Inline (cs : List Char) : Prop := ∀ c ∈ cs, c ≠ ':' ∧ isLineEnd c = false

instance (cs : List Char) : Decidable (Inline cs) :=
  decidable_of_iff (cs.all fun c => c ≠ ':' && !isLineEnd c) (by simp [Inline])

theorem Inline.append (hc : Inline cs) (hd : Inline ds) : Inline (cs ++ ds) :=
  List.forall_mem_append.2 ⟨hc, hd⟩

theorem Inline.trimLeft (h : Inline cs) : Inline (trimLeft cs) :=
  fun c hc => h c ((List.dropWhile_suffix _).subset hc)

theorem Inline.colon_not_mem (h : Inline cs) : ':' ∉ cs :=
  fun hmem => (h ':' hmem).1 rfl

/-- Behind the first word of a line there is room for any text without colons and line ends. -/
theorem Inline.after (h : Inline cs) : rest.after cs = some rest := by
  induction cs with
  | nil => rfl
  | cons c cs ih =>
    obtain ⟨⟨hcolon, hend⟩, hcs⟩ := List.forall_mem_cons.1 h
    have hnext : rest.next c = some rest := by simp [LineState.next, hcolon, hend]
    rw [after_cons, hnext]
    exact ih hcs

theorem inline_toDigits {b : Nat} (hb : 1 < b) (hb' : b ≤ 16) (n : Nat) :
    Inline (Nat.toDigits b n) := by
  have hdigit : ∀ d < 16, d.digitChar ≠ ':' ∧ isLineEnd d.digitChar = false := by decide
  induction n using Nat.strongRecOn with
  | ind n ih =>
    by_cases hn : n < b
    · rw [Nat.toDigits_of_lt_base hn]
      exact List.forall_mem_singleton.2 (hdigit n (by omega))
    · have hlt : n % b < b := Nat.mod_lt n (by omega)
      rw [Nat.toDigits_of_base_le hb (by omega)]
      exact (ih (n / b) (Nat.div_lt_self (by omega) hb)).append
        (List.forall_mem_singleton.2 (hdigit _ (by omega)))

theorem inline_hex (width n : Nat) : Inline (Text.hex width n) := by
  refine Inline.append (fun c hc => ?_) (inline_toDigits (by decide) (by decide) n)
  rw [List.eq_of_mem_replicate hc]
  decide

theorem inline_escape (quote : Char) (h : c ≠ ':' ∧ isLineEnd c = false) :
    Inline (Text.escape quote c) := by
  have hcode : ∀ (d : Char) (width : Nat), d ≠ ':' ∧ isLineEnd d = false →
      Inline ('\\' :: d :: Text.hex width c.toNat) := fun d width hd =>
    List.forall_mem_cons.2 ⟨by decide, List.forall_mem_cons.2 ⟨hd, inline_hex _ _⟩⟩
  unfold Text.escape
  repeat' split
  · exact List.forall_mem_cons.2 ⟨by decide, List.forall_mem_singleton.2 h⟩
  · decide
  · decide
  · decide
  · exact List.forall_mem_singleton.2 h
  · exact hcode _ _ (by decide)
  · exact hcode _ _ (by decide)
  · exact hcode _ _ (by decide)

theorem inline_quoted {s : String} (h : Inline s.toList) : Inline (Text.quoted s).toList := by
  have hquote : Text.quoteFor s ≠ ':' ∧ isLineEnd (Text.quoteFor s) = false := by
    unfold Text.quoteFor
    split <;> decide
  have hchars : Inline (s.toList.flatMap (Text.escape (Text.quoteFor s))) := by
    intro c hc
    obtain ⟨d, hd, hc⟩ := List.mem_flatMap.1 hc
    exact inline_escape _ (h d hd) c hc
  rw [Text.quoted, String.toList_ofList]
  exact List.forall_mem_append.2
    ⟨List.forall_mem_cons.2 ⟨hquote, hchars⟩, List.forall_mem_singleton.2 hquote⟩

theorem inline_nat (n : Nat) : Inline (toString n).toList := by
  have hdigits : (toString n).toList = Nat.toDigits 10 n := Nat.toList_repr
  rw [hdigits]
  exact inline_toDigits (by decide) (by decide) n

theorem inline_int (k : Int) : Inline (toString k).toList := by
  cases k with
  | ofNat n => exact inline_nat n
  | negSucc n =>
    have hminus : toString (Int.negSucc n) = "-" ++ toString (n + 1) := rfl
    rw [hminus, String.toList_append]
    exact Inline.append (by decide) (inline_nat _)

theorem inline_intercalate {sep : String} (hsep : Inline sep.toList) : ∀ {parts : List String},
    (∀ p ∈ parts, Inline p.toList) → Inline (sep.intercalate parts).toList
  | [], _ => by simp [Inline]
  | [p], h => by simpa using h p (.head _)
  | p :: q :: ps, h => by
    obtain ⟨hp, hps⟩ := List.forall_mem_cons.1 h
    rw [String.intercalate_cons_cons, String.toList_append, String.toList_append]
    exact (hp.append hsep).append (inline_intercalate hsep hps)

namespace Cell

theorem inners_eq (cs : List Cell) : inners cs = cs.map inner := by
  induction cs with
  | nil => rfl
  | cons c cs ih => rw [inners, ih, List.map_cons]

theorem inline_inner_tuple {cs : List Cell} (h : ∀ c ∈ cs, ExprLang.Inline c.inner.toList) :
    ExprLang.Inline (tuple cs).inner.toList := by
  have hbetween : ∀ {a b s : String}, ExprLang.Inline a.toList → ExprLang.Inline s.toList →
      ExprLang.Inline b.toList → ExprLang.Inline (a ++ s ++ b).toList := by
    intro a b s ha hs hb
    rw [String.toList_append, String.toList_append]
    exact (ha.append hs).append hb
  by_cases hone : ∃ c, cs = [c]
  · obtain ⟨c, rfl⟩ := hone
    rw [inner]
    exact hbetween (by decide) (h c (.head _)) (by decide)
  · rw [inner]
    · refine hbetween (by decide) (inline_intercalate (by decide) ?_) (by decide)
      rw [inners_eq]
      exact List.forall_mem_map.2 h
    · exact fun c hc => hone ⟨c, hc⟩

/-- An operand of an instruction can stand in a line, by itself and in a comment. -/
structure Inline (c : Cell) : Prop where
  alone : ExprLang.Inline c.alone.toList
  inner : ExprLang.Inline c.inner.toList

theorem inline_int (k : Int) : (int k).Inline := ⟨ExprLang.inline_int k, ExprLang.inline_int k⟩

theorem inline_text {s : String} (h : ExprLang.Inline s.toList) : (text s).Inline :=
  ⟨h, inline_quoted h⟩

theorem inline_instr {m : String} {operands : List Cell} (hm : ExprLang.Inline m.toList)
    (h : ∀ v ∈ operands, v.Inline) : ExprLang.Inline (tuple (text m :: operands)).inner.toList :=
  inline_inner_tuple (List.forall_mem_cons.2 ⟨inline_quoted hm, fun v hv => (h v hv).inner⟩)

end Cell

/-! ## Texts of instructions -/

theorem trim_label (cs : List Char) : trim (cs ++ [':']) = trimLeft cs ++ [':'] := by
  have hleft : trimLeft (cs ++ [':']) = trimLeft cs ++ [':'] := by
    rw [trimLeft, List.dropWhile_append]
    split
    · next h => rw [trimLeft, List.isEmpty_iff.1 h]; rfl
    · rfl
  rw [trim, hleft]
  exact Text.trimRight_blanks _ rfl 0

theorem of_layoutLine_label (h : Inline cs) :
    AsmLine.of (layoutLine (cs ++ [':'])) = AsmLine.of (cs ++ [':']) := by
  refine AsmLine.of_layoutLine (fun name rest hcut => ?_) ?_
  · rw [trim_label, Text.cut?_append [] h.trimLeft.colon_not_mem] at hcut
    cases hcut
    rfl
  · rw [AsmLine.of_append h.colon_not_mem]
    exact Nat.zero_lt_succ 7

theorem whole_labelText {name : Cell} (h : name.Inline) : WholeLines (labelText name) := by
  have hleft := h.alone.trimLeft
  have hends : (labelText name).toList = trimLeft name.alone.toList ++ [':'] ++ ['\n'] := by
    rw [labelText, String.toList_append, String.toList_ofList, String.toList_append]
    exact congrArg (· ++ ['\n']) (trim_label _)
  have hline : ∀ c ∈ trimLeft name.alone.toList ++ [':'], isLineEnd c = false :=
    List.forall_mem_append.2 ⟨fun c hc => (hleft c hc).2, List.forall_mem_singleton.2 rfl⟩
  refine ⟨⟨_, hends⟩, fun line hmem => ?_⟩
  rw [hends, Text.lines, Text.linesFrom_line [] [] hline] at hmem
  obtain rfl := List.mem_singleton.1 hmem
  exact of_layoutLine_label hleft

theorem after_blank {bs : List Char} (h : Blank bs) : start.after bs = some start := by
  induction bs with
  | nil => rfl
  | cons b bs ih =>
    obtain ⟨hb, hbs⟩ := List.forall_mem_cons.1 h
    have hnext : start.next b = some start := by
      have hcolon : b ≠ ':' := by
        rintro rfl
        cases hb
      simp [LineState.next, hcolon, hb]
    rw [after_cons, hnext]
    exact ih hbs

theorem InColumns.trim (h : InColumns cs) : InColumns (trim cs) := by
  obtain ⟨bs, es, hb, -, hcs⟩ := Text.exists_trim cs
  obtain ⟨s, hs⟩ := h
  rw [← hcs, after_append, after_blank hb] at hs
  exact InColumns.of_append ⟨s, hs⟩

/-- An instruction stands under its comment. -/
theorem whole_commented {c : Cell} {body : String} (hc : Inline c.inner.toList)
    (hb : InColumns body.toList) : WholeLines (commented c body) := by
  have hends : (commented c body).toList =
      ";;; ".toList ++ (c.inner.toList ++ '\n' :: trim body.toList) ++ ['\n'] := by
    simp [commented]
  obtain ⟨s, hs⟩ := hb.trim
  refine ⟨⟨_, hends⟩, InColumns.saysSame ⟨start, ?_⟩⟩
  have hnote : start.after ";;; ".toList = some rest := by decide
  rw [hends, after_append, after_append, hnote, Option.bind_some, after_append, hc.after,
    Option.bind_some, after_cons, next_lineEnd _ rfl, Option.bind_some, hs, Option.bind_some,
    after_cons, next_lineEnd _ rfl]
  rfl

/-! ## Templates -/

theorem inColumns_intercalate {sep : String}
    (hsep : ∀ s : LineState, s.after sep.toList = some start) :
    ∀ {lines : List String}, (∀ l ∈ lines, InColumns l.toList) →
      InColumns (sep.intercalate lines).toList
  | [], _ => ⟨start, rfl⟩
  | [l], h => by simpa using h l (.head _)
  | l :: m :: ls, h => by
    obtain ⟨⟨s, hs⟩, hls⟩ := List.forall_mem_cons.1 h
    obtain ⟨t, ht⟩ := inColumns_intercalate hsep hls
    refine ⟨t, ?_⟩
    rw [String.intercalate_cons_cons, String.toList_append, String.toList_append, after_append,
      after_append, hs, Option.bind_some, hsep, Option.bind_some, ht]

theorem inColumns_templateLines {lines : List String} (h : ∀ l ∈ lines, InColumns l.toList) :
    InColumns (templateLines lines).toList :=
  inColumns_intercalate (fun _ => rfl) h

theorem inColumns_written (lines : List (List Char)) (h : ∀ cs ∈ lines, InColumns cs) :
    ∀ l ∈ lines.map String.ofList, InColumns l.toList :=
  List.forall_mem_map.2 fun cs hcs => by
    rw [String.toList_ofList]
    exact h cs hcs

/-- Among such lines may stand one of another form. -/
theorem inColumns_around (before behind : List (List Char)) {line : String}
    (hline : InColumns line.toList) (hbefore : ∀ cs ∈ before, InColumns cs)
    (hbehind : ∀ cs ∈ behind, InColumns cs) :
    ∀ l ∈ before.map String.ofList ++ line :: behind.map String.ofList, InColumns l.toList :=
  List.forall_mem_append.2 ⟨inColumns_written before hbefore,
    List.forall_mem_cons.2 ⟨hline, inColumns_written behind hbehind⟩⟩

/-- A line with an operand behind the first word. -/
theorem inColumns_operand {a v : String} (ha : start.after a.toList = some rest)
    (hv : Inline v.toList) : InColumns (a ++ v).toList := by
  refine ⟨rest, ?_⟩
  rw [String.toList_append, after_append, ha]
  exact hv.after

theorem inColumns_operand_between {a v b : String} (ha : start.after a.toList = some rest)
    (hv : Inline v.toList) (hb : Inline b.toList) : InColumns (a ++ v ++ b).toList := by
  rw [String.append_assoc]
  refine inColumns_operand ha ?_
  rw [String.toList_append]
  exact hv.append hb

section
variable {op : String}

theorem inColumns_sumText (h : InColumns s!"{mnemonic5 op} rax, rcx".toList) :
    InColumns (sumText op).toList :=
  inColumns_templateLines (inColumns_around [_, _] [_] h (by decide) (by decide))

theorem inColumns_productText (h : InColumns s!"{mnemonic5 op} rcx".toList) :
    InColumns (productText op).toList :=
  inColumns_templateLines (inColumns_around [_, _, _] [_] h (by decide) (by decide))

theorem inColumns_comparisonText (h : InColumns s!"{mnemonic5 (operatorMnemonic op)} al".toList) :
    InColumns (comparisonText op).toList :=
  inColumns_templateLines (inColumns_around [_, _, _] [_, _] h (by decide) (by decide))

theorem inColumns_unaryText (h : InColumns s!"{mnemonic5 op} rax".toList) :
    InColumns (unaryText op).toList :=
  inColumns_templateLines (inColumns_around [_] [_] h (by decide) (by decide))

end

namespace CMa

theorem body_inColumns {i : Instr} (h : ∀ v ∈ i.parts.2, v.Inline) (hname : ∀ n, i ≠ .label n) :
    InColumns i.body.toList := by
  cases i with
  | label name => exact absurd rfl (hname name)
  | unary op =>
    cases op <;> exact inColumns_unaryText (by decide)
  | binary op =>
    cases op with
    | add | sub => exact inColumns_sumText (by decide)
    | mul | div => exact inColumns_productText (by decide)
    | _ => exact inColumns_comparisonText (by decide)
  | pop | mark => exact inColumns_written [_] (by decide) _ (.head _)
  | enter | call => exact inColumns_templateLines (inColumns_written [_, _] (by decide))
  | dup => exact inColumns_templateLines (inColumns_written [_, _, _] (by decide))
  | swap => exact inColumns_templateLines (inColumns_written [_, _, _, _] (by decide))
  | load | store => exact inColumns_templateLines (inColumns_written [_, _, _, _, _] (by decide))
  | ret => exact inColumns_templateLines (inColumns_written [_, _, _, _, _, _] (by decide))
  | jump v | alloc v => exact inColumns_operand (by decide) (h v (.head _)).alone
  | loadc v =>
    have hv := (h v (.head _)).alone
    exact inColumns_templateLines
      (inColumns_around [] [_] (inColumns_operand (by decide) hv) (by decide) (by decide))
  | loadrc v | slide v =>
    have hv := (h v (.head _)).alone
    exact inColumns_templateLines
      (inColumns_around [_] [_] (inColumns_operand (by decide) hv) (by decide) (by decide))
  | jumpz v =>
    have hv := (h v (.head _)).alone
    exact inColumns_templateLines
      (inColumns_around [_, _] [] (inColumns_operand (by decide) hv) (by decide) (by decide))

end CMa

namespace MaMa

theorem after_allocation {words : String} (h : Inline words.toList) (s : LineState) :
    s.after (allocation words).toList = some start := by
  have hopen : s.after "\n        mov   rdi, 8*".toList = some rest := rfl
  have hclose : rest.after "\n        call  malloc\n        mov   rdx, rax\n    ".toList =
    some start := by decide
  show s.after ("\n        mov   rdi, 8*" ++ words ++
    "\n        call  malloc\n        mov   rdx, rax\n    ").toList = _
  rw [String.toList_append, String.toList_append, after_append, after_append, hopen,
    Option.bind_some, h.after, Option.bind_some, hclose]

/-- An object is allocated and filled, whatever stands before that. -/
theorem after_allocated {words middle : String} {lines : List String} (hw : Inline words.toList)
    (hm : InColumns middle.toList) (h : ∀ l ∈ lines, InColumns l.toList) (s : LineState) :
    ∃ t, s.after (allocation words ++ middle ++ templateLines ("" :: lines)).toList = some t := by
  obtain ⟨u, hu⟩ := hm
  have hlines : ∃ t, u.after (templateLines ("" :: lines)).toList = some t := by
    cases lines with
    | nil => exact ⟨u, rfl⟩
    | cons l ls =>
      obtain ⟨t, ht⟩ := inColumns_templateLines h
      refine ⟨t, ?_⟩
      rw [templateLines, String.intercalate_cons_cons, String.toList_append, after_append]
      exact ht
  rw [String.toList_append, String.toList_append, after_append, after_append,
    after_allocation hw, Option.bind_some, hu]
  exact hlines

theorem inColumns_vectorBody (k : Int) {shown : String} (h : Inline shown.toList) :
    InColumns (vectorBody k shown).toList := by
  refine after_allocated (inline_int _) (inColumns_intercalate (fun _ => rfl) ?_) ?_ start
  · refine List.forall_mem_map.2 fun i _ => ?_
    exact inColumns_operand_between (by decide) (inline_int _) (by decide)
  · exact inColumns_around [] [_, _] (inColumns_operand (by decide) h) (by decide) (by decide)

theorem after_freshBodies (k : Nat) (s : LineState) :
    ∃ t, s.after (String.join (List.replicate k freshBody)).toList = some t := by
  have hfresh : ∀ s : LineState, ∃ t, s.after freshBody.toList = some t := by
    have hbody : freshBody = allocation "4" ++ "" ++ templateLines ["", "mov   qword [rdx], 'F'",
        "mov   qword [rdx + 8*1], 0", "mov   qword [rdx + 8*2], 0", "mov   qword [rdx + 8*3], 0",
        "push  rdx"] := by
      rw [String.append_empty]
      rfl
    rw [hbody]
    exact after_allocated (by decide) ⟨start, rfl⟩
      (inColumns_written [_, _, _, _, _] (by decide))
  induction k generalizing s with
  | zero => exact ⟨s, rfl⟩
  | succ k ih =>
    obtain ⟨t, ht⟩ := hfresh s
    rw [List.replicate_succ, String.join_cons, String.toList_append, after_append, ht]
    exact ih t

theorem body_inColumns {i : Instr} {body : String} (hbody : i.body = .ok body)
    (h : ∀ v ∈ i.parts.2, v.Inline) (hname : ∀ n, i ≠ .label n) : InColumns body.toList := by
  cases i with
  | label name => exact absurd rfl (hname name)
  | unary op =>
    obtain rfl := Except.ok.inj hbody
    cases op <;> exact inColumns_unaryText (by decide)
  | binary op =>
    cases op with
    | add | sub =>
      obtain rfl := Except.ok.inj hbody
      exact inColumns_sumText (by decide)
    | mul | div =>
      obtain rfl := Except.ok.inj hbody
      exact inColumns_productText (by decide)
    | _ =>
      obtain rfl := Except.ok.inj hbody
      exact inColumns_comparisonText (by decide)
  | pop =>
    obtain rfl := Except.ok.inj hbody
    exact inColumns_written [_] (by decide) _ (.head _)
  | dup | getbasic =>
    obtain rfl := Except.ok.inj hbody
    exact inColumns_templateLines (inColumns_written [_, _, _] (by decide))
  | swap | apply =>
    obtain rfl := Except.ok.inj hbody
    exact inColumns_templateLines (inColumns_written [_, _, _, _] (by decide))
  | popenv =>
    obtain rfl := Except.ok.inj hbody
    exact inColumns_templateLines (inColumns_written [_, _, _, _, _, _] (by decide))
  | jump v =>
    obtain rfl := Except.ok.inj hbody
    exact inColumns_operand (by decide) (h v (.head _)).alone
  | pushloc v | pushglob v =>
    obtain rfl := Except.ok.inj hbody
    exact inColumns_operand_between (by decide) (h v (.head _)).alone (by decide)
  | loadc v =>
    obtain rfl := Except.ok.inj hbody
    have hv := (h v (.head _)).alone
    exact inColumns_templateLines
      (inColumns_around [] [_] (inColumns_operand (by decide) hv) (by decide) (by decide))
  | slide v =>
    obtain rfl := Except.ok.inj hbody
    have hv := (h v (.head _)).alone
    exact inColumns_templateLines
      (inColumns_around [_] [_] (inColumns_operand (by decide) hv) (by decide) (by decide))
  | jumpz v =>
    obtain rfl := Except.ok.inj hbody
    have hv := (h v (.head _)).alone
    exact inColumns_templateLines
      (inColumns_around [_, _] [] (inColumns_operand (by decide) hv) (by decide) (by decide))
  | mark v =>
    obtain rfl := Except.ok.inj hbody
    have hv := (h v (.head _)).alone
    exact inColumns_templateLines
      (inColumns_around [_, _] [_, _]
        (inColumns_operand_between (by decide) hv (by decide)) (by decide) (by decide))
  | patch v =>
    obtain rfl := Except.ok.inj hbody
    have hv := (h v (.head _)).alone
    exact inColumns_templateLines
      (inColumns_around [] [_, _, _, _, _, _, _]
        (inColumns_operand_between (by decide) hv (by decide)) (by decide) (by decide))
  | mkbasic =>
    obtain rfl := Except.ok.inj hbody
    exact inColumns_templateLines (List.forall_mem_cons.2
      ⟨⟨start, after_allocation (by decide) start⟩, inColumns_written [_, _, _] (by decide)⟩)
  | mkfunval v =>
    obtain rfl := Except.ok.inj hbody
    have hv := (h v (.head _)).alone
    exact inColumns_templateLines (List.forall_mem_cons.2
      ⟨⟨start, after_allocation (by decide) start⟩,
        inColumns_around [_] [_, _, _] (inColumns_operand (by decide) hv) (by decide) (by decide)⟩)
  | mkvec v =>
    rw [Instr.body] at hbody
    split at hbody
    · obtain rfl := Except.ok.inj hbody
      exact inColumns_vectorBody _ (h v (.head _)).alone
    · cases hbody
  | alloc v =>
    rw [Instr.body] at hbody
    split at hbody
    · obtain rfl := Except.ok.inj hbody
      exact after_freshBodies _ start
    · cases hbody

end MaMa

/-! ## Whole texts -/

theorem CMa.inline_mnemonic (i : Instr) : Inline i.parts.1.toList := by
  cases i with
  | unary op => cases op <;> decide
  | binary op => cases op <;> decide
  | _ =>
    dsimp only [Instr.parts]
    decide

/-- An instruction without a colon or a line end in its operands has a text of whole lines. -/
theorem CMa.whole_text {i : Instr} (h : ∀ v ∈ i.parts.2, v.Inline) : WholeLines i.text := by
  by_cases hname : ∃ name, i = .label name
  · obtain ⟨name, rfl⟩ := hname
    exact whole_labelText (h name (.head _))
  · have htext : i.text = commented i.cell i.body := by
      cases i with
      | label name => exact absurd ⟨name, rfl⟩ hname
      | _ => rfl
    rw [htext]
    refine whole_commented ?_ (body_inColumns h fun name hi => hname ⟨name, hi⟩)
    exact Cell.inline_instr (inline_mnemonic i) h

theorem MaMa.inline_mnemonic (i : Instr) : Inline i.parts.1.toList := by
  cases i with
  | unary op => cases op <;> decide
  | binary op => cases op <;> decide
  | _ =>
    dsimp only [Instr.parts]
    decide

/-- An instruction without a colon or a line end in its operands has a text of whole lines. -/
theorem MaMa.whole_text {i : Instr} {text : String} (htext : i.text = .ok text)
    (h : ∀ v ∈ i.parts.2, v.Inline) : WholeLines text := by
  by_cases hname : ∃ name, i = .label name
  · obtain ⟨name, rfl⟩ := hname
    obtain rfl := Except.ok.inj htext
    exact whole_labelText (h name (.head _))
  · have hcommented : i.text = (do return commented i.cell (← i.body)) := by
      cases i with
      | label name => exact absurd ⟨name, rfl⟩ hname
      | _ => rfl
    rw [hcommented] at htext
    cases hbody : i.body with
    | error f =>
      rw [hbody] at htext
      cases htext
    | ok body =>
      rw [hbody] at htext
      obtain rfl := Except.ok.inj htext
      refine whole_commented ?_ (body_inColumns hbody h fun name hi => hname ⟨name, hi⟩)
      exact Cell.inline_instr (inline_mnemonic i) h

end ExprLang
