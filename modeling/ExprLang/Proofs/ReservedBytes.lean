/-
  The room for global variables in an assembly program.

  The text of a program is laid out line by line.  One of its lines lowers the stack pointer by
  eight bytes for each global variable, whatever the number of digits that this takes:

  * `layout_parts`: a line of a text is laid out, wherever it stands in the text;
  * `layoutLine_reserve`, `codeColumns_reserve`: the columns of the line;
  * `program_reserves`: the line stands in every program.
-/
import ExprLang.CMa.Assembly
import ExprLang.Proofs.Texts
import Mathlib

namespace ExprLang

/-! ## Blanks and lines -/

namespace Text

/-- Nothing is cut off where there are no blanks. -/
theorem trim_eq_self {cs : List Char} (h : ∀ c ∈ cs, isBlank c = false) : trim cs = cs := by
  have hdrop : ∀ {cs : List Char}, (∀ c ∈ cs, isBlank c = false) → cs.dropWhile isBlank = cs := by
    intro cs h
    cases cs with
    | nil => rfl
    | cons c cs => exact List.dropWhile_cons_of_neg (by simp [h c (.head cs)])
  rw [trim, trimLeft, hdrop h, trimRight, hdrop (by simpa using h), List.reverse_reverse]

theorem trimRight_blanks (cs : List Char) {d : Char} (hd : isBlank d = false) (n : Nat) :
    trimRight (cs ++ d :: List.replicate n ' ') = cs ++ [d] := by
  have hblank : isBlank ' ' = true := rfl
  simp [trimRight, hblank, hd]

theorem linesFrom_append (line cs : List Char) :
    ∃ before, ∀ zs, linesFrom line (cs ++ '\n' :: zs) = before ++ linesFrom [] zs := by
  fun_induction linesFrom line cs with
  | case1 line => exact ⟨[line.reverse], fun zs => by simp [linesFrom, isLineEnd]⟩
  | case2 line => exact ⟨[line.reverse], fun zs => by simp [linesFrom, isLineEnd]⟩
  | case3 line cs ih =>
    obtain ⟨before, h⟩ := ih
    exact ⟨line.reverse :: before, fun zs => by simp [linesFrom, h]⟩
  | case4 line c cs hcr hend ih =>
    obtain ⟨before, h⟩ := ih
    -- A carriage return that comes last is one line end with the line feed.
    by_cases hlast : c = '\r' ∧ cs = []
    · obtain ⟨rfl, rfl⟩ := hlast
      exact ⟨[line.reverse], fun zs => by simp [linesFrom]⟩
    · refine ⟨line.reverse :: before, fun zs => ?_⟩
      rw [List.cons_append, linesFrom, if_pos hend, h]
      · rfl
      · intro _ hc hcs
        cases cs with
        | nil => exact hlast ⟨hc, rfl⟩
        | cons d ds => exact hcr ds hc (by rw [(List.cons.inj hcs).1])
  | case5 line c cs hcr hend ih =>
    obtain ⟨before, h⟩ := ih
    have hc : c ≠ '\r' := by
      rintro rfl
      exact hend rfl
    refine ⟨before, fun zs => ?_⟩
    rw [List.cons_append, linesFrom, if_neg hend, h]
    exact fun _ hr => absurd hr hc

theorem linesFrom_line (zs : List Char) : ∀ {cs : List Char} (line : List Char),
    (∀ c ∈ cs, isLineEnd c = false) →
    linesFrom line (cs ++ '\n' :: zs) = (line.reverse ++ cs) :: linesFrom [] zs
  | [], line, _ => by simp [linesFrom, isLineEnd]
  | c :: cs, line, h => by
    obtain ⟨hc, hcs⟩ := List.forall_mem_cons.1 h
    have hcr : c ≠ '\r' := by
      rintro rfl
      cases hc
    rw [List.cons_append, linesFrom, if_neg (by simp [hc]), linesFrom_line zs _ hcs]
    · simp
    · exact fun _ hr => absurd hr hcr

end Text

theorem layout_line (before after : List Char) {line : List Char}
    (h : ∀ c ∈ line, Text.isLineEnd c = false) :
    layoutLine line ++ ['\n'] <:+:
      layoutLines (Text.lines (before ++ '\n' :: (line ++ '\n' :: after))) := by
  obtain ⟨lines, hlines⟩ := Text.linesFrom_append [] before
  rw [Text.lines, hlines, Text.linesFrom_line after [] h, layoutLines, List.flatMap_append,
    List.flatMap_cons]
  exact ⟨_, _, List.append_assoc _ _ _⟩

theorem layout_parts {a p b s n m i j k : String} (x y : List Char)
    (hb : b.toList = x ++ ['\n']) (hm : m.toList = y ++ ['\n'])
    (h : ∀ c ∈ s.toList ++ (n.toList ++ y), Text.isLineEnd c = false) :
    layoutLine (s.toList ++ (n.toList ++ y)) ++ ['\n'] <:+:
      (a ++ layout (p ++ b ++ s ++ n ++ m ++ i ++ j ++ k)).toList := by
  have hline := layout_line (p.toList ++ x) (i.toList ++ j.toList ++ k.toList) h
  have htext : (p ++ b ++ s ++ n ++ m ++ i ++ j ++ k).toList = (p.toList ++ x) ++
      '\n' :: (s.toList ++ (n.toList ++ y) ++ '\n' :: (i.toList ++ j.toList ++ k.toList)) := by
    simp [hb, hm]
  rw [String.toList_append, layout, String.toList_ofList, htext]
  exact hline.trans (List.suffix_append _ _).isInfix

/-! ## Digits -/

/-- The text of a number are digits, and at least one. -/
theorem toString_eq_digits (n : Nat) :
    ∃ ds d, (toString n).toList = ds ++ [d] ∧ ∀ c ∈ ds ++ [d], c.isDigit = true := by
  have hne : Nat.toDigits 10 n ≠ [] := Nat.toDigits_ne_nil
  have hrepr : (toString n).toList = Nat.toDigits 10 n := Nat.toList_repr
  refine ⟨(Nat.toDigits 10 n).dropLast, (Nat.toDigits 10 n).getLast hne, ?_, fun c hc => ?_⟩
  · rw [hrepr, List.dropLast_append_getLast]
  · rw [List.dropLast_append_getLast] at hc
    exact Nat.isDigit_of_mem_toDigits (by decide) (by decide) hc

theorem not_blank_of_isDigit {c : Char} (h : c.isDigit = true) :
    Text.isBlank c = false ∧ Text.isLineEnd c = false := by
  simp only [Char.isDigit, Bool.and_eq_true, decide_eq_true_eq] at h
  have h₁ : 48 ≤ c.toNat := h.1
  have h₂ : c.toNat ≤ 57 := h.2
  constructor
  · simp [Text.isBlank]
    omega
  · simp [Text.isLineEnd]
    omega

/-! ## Lines -/

namespace Text

/-- The blanks around a text are cut off. -/
theorem trim_between {bs : List Char} (cs : List Char) {b e : Char} (hbs : ∀ c ∈ bs, isBlank c = true)
    (hb : isBlank b = false) (he : isBlank e = false) (n : Nat) :
    trim (bs ++ b :: (cs ++ e :: List.replicate n ' ')) = b :: (cs ++ [e]) := by
  have hleft : trimLeft (bs ++ b :: (cs ++ e :: List.replicate n ' ')) =
      b :: cs ++ e :: List.replicate n ' ' := by
    rw [trimLeft, List.dropWhile_append_of_pos hbs, List.dropWhile_cons_of_neg (by simp [hb])]
    rfl
  rw [trim, hleft, trimRight_blanks _ he]
  rfl

end Text

theorem layoutLine_comment {bs code comment : List Char} {b e : Char}
    (hbs : ∀ c ∈ bs, Text.isBlank c = true) (hb : Text.isBlank b = false)
    (he : Text.isBlank e = false) (hcolon : ':' ∉ b :: code) (hsemicolon : ';' ∉ b :: code)
    (hcomment : ':' ∉ comment ++ [e]) :
    layoutLine (bs ++ b :: (code ++ ';' :: (comment ++ [e]))) =
      Text.padRight 40 (column [] ++ codeColumns (b :: code)) ++ ';' :: (comment ++ [e]) := by
  have htrim : ∀ {bs : List Char}, (∀ c ∈ bs, Text.isBlank c = true) →
      Text.trim (bs ++ b :: (code ++ ';' :: (comment ++ [e]))) =
        b :: code ++ ';' :: (comment ++ [e]) := by
    intro bs hbs
    simpa using Text.trim_between (code ++ ';' :: comment) hbs hb he 0
  have hlabel : labelColumn (b :: code ++ ';' :: (comment ++ [e])) =
      (column [], b :: code ++ ';' :: (comment ++ [e])) := by
    rw [labelColumn, Text.cut?_of_not_mem]
    intro hmem
    rcases List.mem_append.1 hmem with hmem | hmem
    · exact hcolon hmem
    · exact hcomment ((List.mem_cons.1 hmem).resolve_left (by decide))
  have hsplit : splitComment (b :: code ++ ';' :: (comment ++ [e])) =
      (b :: code, some (comment ++ [e])) := by
    have hsame : Text.trim (b :: code ++ ';' :: (comment ++ [e])) = _ :=
      htrim (List.forall_mem_nil _)
    rw [splitComment, hsame, Text.cut?_append _ hsemicolon]
  have hnote : [';', ';', ';'].isPrefixOf (b :: code ++ ';' :: (comment ++ [e])) = false := by
    rw [List.mem_cons, not_or] at hsemicolon
    simp [List.isPrefixOf, hsemicolon.1]
  rw [layoutLine, htrim hbs, hlabel]
  simp only [hnote, hsplit]
  cases comment <;> rfl

/-! ## The line that makes room -/

def reserveLine (bytes : Nat) : List Char :=
  Text.padRight 40 (column [] ++ (column "sub".toList ++ (column "rsp,".toList ++
    column (toString bytes).toList))) ++ "; Platz für globale Variablen".toList

theorem codeColumns_reserve {ds : List Char} {d : Char}
    (h : ∀ c ∈ ds ++ [d], c.isDigit = true) (n : Nat) :
    codeColumns ("sub   rsp,".toList ++ (ds ++ d :: List.replicate n ' ')) =
      column "sub".toList ++ (column "rsp,".toList ++ column (ds ++ [d])) := by
  have hd : Text.isBlank d = false := (not_blank_of_isDigit (h d (by simp))).1
  have hcomma : ',' ∉ ds ++ [d] := fun hmem => absurd (h _ hmem) (by decide)
  have hcode : Text.trim ("sub   rsp,".toList ++ (ds ++ d :: List.replicate n ' ')) =
      "sub   rsp,".toList ++ (ds ++ [d]) :=
    Text.trim_between ("ub   rsp,".toList ++ ds) (List.forall_mem_nil _) rfl hd n
  have hblanks : ∀ c ∈ "   ".toList, Text.isBlank c = true := by simp [Text.isBlank]
  have hrest : Text.trim ("   rsp,".toList ++ (ds ++ [d])) = "rsp,".toList ++ (ds ++ [d]) :=
    Text.trim_between ("sp,".toList ++ ds) hblanks rfl hd 0
  have hoperands : Text.splitAt ',' ("rsp,".toList ++ (ds ++ [d])) =
      ["rsp".toList, ds ++ [d]] := by
    show Text.splitAt ',' ('r' :: 's' :: 'p' :: ',' :: (ds ++ [d])) = _
    simp [Text.splitAt, Text.splitAt_of_not_mem hcomma]
  have htrimmed : Text.trim (ds ++ [d]) = ds ++ [d] :=
    Text.trim_eq_self fun c hc => (not_blank_of_isDigit (h c hc)).1
  rw [codeColumns, hcode]
  show column "sub".toList ++
    operandColumns (Text.splitAt ',' (Text.trim ("   rsp,".toList ++ (ds ++ [d])))) = _
  rw [hrest, hoperands, operandColumns, operandColumns, htrimmed]
  · rfl
  · simp

theorem layoutLine_reserve {ns : List Char} (hcolon : ':' ∉ ns) (hsemicolon : ';' ∉ ns) :
    layoutLine ("          sub   rsp,".toList ++ (ns ++ "; Platz für globale Variablen".toList)) =
      Text.padRight 40 (column [] ++ codeColumns ("sub   rsp,".toList ++ ns)) ++
        "; Platz für globale Variablen".toList := by
  have hcode : ∀ c, c ∉ "sub   rsp,".toList → c ∉ ns → c ∉ "sub   rsp,".toList ++ ns :=
    fun c hsub hns hmem => (List.mem_append.1 hmem).elim hsub hns
  have hline : "          sub   rsp,".toList ++ (ns ++ "; Platz für globale Variablen".toList) =
      List.replicate 10 ' ' ++ 's' :: ("ub   rsp,".toList ++ ns ++
        ';' :: (" Platz für globale Variable".toList ++ ['n'])) := by
    simp
  have hcomment : "; Platz für globale Variablen".toList =
      ';' :: (" Platz für globale Variable".toList ++ ['n']) := by simp
  rw [hline, hcomment, layoutLine_comment]
  · rfl
  · exact fun c hc => List.eq_of_mem_replicate hc ▸ rfl
  · rfl
  · rfl
  · exact hcode ':' (by decide) hcolon
  · exact hcode ';' (by decide) hsemicolon
  · decide

namespace CMa

theorem opening_reserves (n : Nat) : reserveLine (8 * n) ++ ['\n'] <:+: (opening n).toList := by
  obtain ⟨ds, d, hdigits, hall⟩ := toString_eq_digits (8 * n)
  have hnumber : (padded 16 (toString (8 * n))).toList =
      ds ++ d :: List.replicate (16 - (ds ++ [d]).length) ' ' := by
    rw [padded, String.toList_ofList, Text.padRight, hdigits]
    simp
  have hchars : ∀ c ∈ (padded 16 (toString (8 * n))).toList, c.isDigit = true ∨ c = ' ' := by
    intro c hc
    rw [hnumber, ← List.concat_append, List.mem_append, List.concat_eq_append] at hc
    exact hc.imp (hall c) List.eq_of_mem_replicate
  have hcolumns : reserveLine (8 * n) = layoutLine ("          sub   rsp,".toList ++
      ((padded 16 (toString (8 * n))).toList ++ "; Platz für globale Variablen".toList)) := by
    rw [layoutLine_reserve, hnumber, codeColumns_reserve hall, reserveLine, hdigits]
    · exact fun hmem => absurd (hchars _ hmem) (by decide)
    · exact fun hmem => absurd (hchars _ hmem) (by decide)
  rw [hcolumns]
  have hsub : ∀ c ∈ "          sub   rsp,".toList, Text.isLineEnd c = false := by
    simp [Text.isLineEnd]
  have hcomment : ∀ c ∈ "; Platz für globale Variablen".toList, Text.isLineEnd c = false := by
    simp [Text.isLineEnd]
  refine layout_parts "          sub   rbx,8               ; \" ".toList _ rfl rfl fun c hc => ?_
  rw [List.mem_append, List.mem_append] at hc
  rcases hc with hc | hc | hc
  · exact hsub c hc
  · rcases hchars c hc with hdigit | rfl
    · exact (not_blank_of_isDigit hdigit).2
    · rfl
  · exact hcomment c hc

/-- **Every program makes room for its global variables**: eight bytes for each. -/
theorem program_reserves (code : String) (n : Nat) :
    reserveLine (8 * n) ++ ['\n'] <:+: (program code n).toList := by
  rw [program]
  simp only [String.toList_append, List.append_assoc]
  exact (opening_reserves n).trans (List.prefix_append _ _).isInfix

end CMa

end ExprLang
