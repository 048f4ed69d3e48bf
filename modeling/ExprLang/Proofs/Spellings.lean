/-
  Spelled tokens with gaps between them.

  * `Gap` and `EndGap`: what may stand between two tokens, and behind the last one;
  * `Spells p cs`: the text `cs` is a way to write the piece `p`.  Reserved words are written in any
    letter case, everything else in one way.  `lexeme?_of_spells`: before a gap, such a text is the
    lexeme of its piece;
  * `Separated ps cs`: the text `cs` is made of ways to write the pieces `ps`, with gaps between
    them.  `lex_separated`: the tokens of such a text are the pieces.
-/
import ExprLang.Proofs.Lexing

namespace ExprLang

variable {gap cs rest : List Char}

/-! ## Gaps -/

/-- Blanks, tabs, newlines and comments, all comments ended by a newline. -/
inductive Gap : List Char → Prop
  | nil : Gap []
  | blank {c : Char} {gap : List Char} (hc : c = ' ' ∨ c = '\t' ∨ c = '\n') (h : Gap gap) :
      Gap (c :: gap)
  | comment {note gap : List Char} (hn : '\n' ∉ note) (h : Gap gap) :
      Gap ('#' :: (note ++ '\n' :: gap))

/-- A gap, or a gap with a comment that goes to the end of the text. -/
inductive EndGap : List Char → Prop
  | closed {gap : List Char} (h : Gap gap) : EndGap gap
  | unclosed {gap note : List Char} (h : Gap gap) (hn : '\n' ∉ note) : EndGap (gap ++ '#' :: note)

namespace Gap

theorem startsGap_head? {gap : List Char} (h : Gap gap) : ∀ c ∈ gap.head?, startsGap c = true := by
  intro c hc
  cases h with
  | nil => cases hc
  | blank hb =>
    cases hc
    rcases hb with rfl | rfl | rfl <;> rfl
  | comment =>
    cases hc
    rfl

theorem apart_append {gap : List Char} (h : Gap gap) (hne : gap ≠ []) (rest : List Char) :
    Apart (gap ++ rest) := by
  obtain ⟨c, cs, rfl⟩ := List.exists_cons_of_ne_nil hne
  exact h.startsGap_head?

end Gap

theorem EndGap.apart (h : EndGap gap) : Apart gap := by
  cases h with
  | closed h => exact h.startsGap_head?
  | @unclosed gap note h =>
    cases gap with
    | nil =>
      rintro c ⟨⟩
      rfl
    | cons d gap => exact h.apart_append (List.cons_ne_nil d gap) _

/-! ## Skipping gaps -/

theorem skipGap_note (rest : List Char) : ∀ {note : List Char}, '\n' ∉ note → ∀ o n,
    skipGap true o n (note ++ rest) = skipGap true (o + note.length) n rest
  | [], _, _, _ => rfl
  | c :: note, h, o, n => by
    rw [List.mem_cons, not_or] at h
    rw [List.cons_append, skipGap, if_pos (by simp), skipGap_note rest h.2, List.length_cons]
    · congr 1
      omega
    · rintro rfl
      exact h.1 rfl

theorem skipGap_gap (rest : List Char) (h : Gap gap) : ∀ o n,
    skipGap false o n (gap ++ rest) =
      skipGap false (o + gap.length) (n + gap.count '\n') rest := by
  induction h with
  | nil => exact fun _ _ => rfl
  | blank hc _ ih =>
    intro o n
    rw [List.cons_append, List.length_cons, List.count_cons]
    rcases hc with rfl | rfl | rfl
    · exact (ih (o + 1) n).trans (by congr 1; omega)
    · exact (ih (o + 1) n).trans (by congr 1; omega)
    · exact (ih (o + 1) (n + 1)).trans (by congr 1 <;> grind)
  | @comment note gap hn _ ih =>
    intro o n
    have hskip : skipGap false o n ('#' :: (note ++ '\n' :: gap) ++ rest) =
        skipGap true (o + 1) n (note ++ '\n' :: (gap ++ rest)) := by
      rw [List.cons_append, List.append_assoc]
      rfl
    rw [hskip, skipGap_note _ hn, skipGap, ih]
    simp only [List.length_cons, List.length_append, List.count_cons, List.count_append,
      List.count_eq_zero.2 hn]
    congr 1 <;> grind

/-- Behind the last token, everything is skipped. -/
theorem skipGap_endGap (h : EndGap gap) (o n : Nat) :
    skipGap false o n gap = ⟨[], o + gap.length, n + gap.count '\n'⟩ := by
  cases h with
  | closed h =>
    have hskip := skipGap_gap [] h o n
    rw [List.append_nil] at hskip
    exact hskip
  | @unclosed gap note h hn =>
    have hnote := skipGap_note [] hn (o + gap.length + 1) (n + gap.count '\n')
    rw [List.append_nil] at hnote
    rw [skipGap_gap _ h]
    refine hnote.trans ?_
    simp only [skipGap, List.length_append, List.length_cons, List.count_append, List.count_cons,
      List.count_eq_zero.2 hn]
    congr 1
    omega

theorem lexFrom_gap (h : Gap gap) (rest : List Char) (o n : Nat) :
    lexFrom ⟨gap ++ rest, o, n⟩ = lexFrom ⟨rest, o + gap.length, n + gap.count '\n'⟩ := by
  have hnext : Cursor.next ⟨gap ++ rest, o, n⟩ =
      Cursor.next ⟨rest, o + gap.length, n + gap.count '\n'⟩ := by
    simp only [Cursor.next, skipGap_gap rest h]
  rw [lexFrom, lexFrom, hnext]

theorem lexFrom_endGap (h : EndGap gap) (o n : Nat) :
    lexFrom ⟨gap, o, n⟩ = ⟨[], none, n + gap.count '\n'⟩ := by
  have hnext : Cursor.next ⟨gap, o, n⟩ =
      .finished ⟨[], o + gap.length, n + gap.count '\n'⟩ := by
    simp only [Cursor.next, skipGap_endGap h]
  exact lexFrom_finished hnext

/-! ## Ways to write a piece -/

/-- The text is a way to write the piece. -/
inductive Spells : Piece → List Char → Prop
  | plain {p : Piece} (h : p.valid = true) : Spells p p.spelling
  | word (w : Keyword) {cs : List Char} (h : cs.map Char.toUpper = w.text.toList) :
      Spells (.word w) cs

theorem isWordStart_of_toUpper {c : Char} (h : isWordStart c.toUpper = true) :
    isWordStart c = true := by
  by_cases hlower : c.isLower = true
  · simp [isWordStart, Char.isAlpha, hlower]
  · rwa [Char.toUpper, dif_neg (by simpa [Char.isLower] using hlower)] at h

theorem isWordPart_of_toUpper {c : Char} (h : isWordPart c.toUpper = true) :
    isWordPart c = true := by
  by_cases hlower : c.isLower = true
  · simp [isWordPart, Char.isAlphanum, Char.isAlpha, hlower]
  · rwa [Char.toUpper, dif_neg (by simpa [Char.isLower] using hlower)] at h

theorem Keyword.ofUpper?_text (w : Keyword) : Keyword.ofUpper? w.text = some w := by
  cases w <;> decide

theorem lexeme?_keyword (w : Keyword) (h : cs.map Char.toUpper = w.text.toList) (hr : Apart rest) :
    lexeme? (cs ++ rest) = some ⟨.word w, w.text, cs, rest⟩ := by
  obtain ⟨d, ds, hw, hd, hds, -⟩ := Lexeme.keyword_spelling w
  cases cs with
  | nil => cases hw.symm.trans h.symm
  | cons c cs =>
    rw [hw, List.map_cons, List.cons.injEq] at h
    obtain ⟨rfl, rfl⟩ := h
    have hcs : cs.all isWordPart = true := by
      rw [List.all_map] at hds
      exact List.all_eq_true.2 fun c hc => isWordPart_of_toUpper (List.all_eq_true.1 hds c hc)
    rw [Lexeme.lexeme?_word (isWordStart_of_toUpper hd) hcs hr, List.map_cons, ← hw,
      String.ofList_toList, Keyword.ofUpper?_text]
    rfl

/-- **A piece that is written before a gap is the lexeme that stands there.** -/
theorem lexeme?_of_spells {p : Piece} (h : Spells p cs) (hr : Apart rest) :
    lexeme? (cs ++ rest) = some ⟨p.kind, p.text, cs, rest⟩ := by
  cases h with
  | plain h => exact lexeme?_spelling h hr
  | word w h => exact lexeme?_keyword w h hr

/-! ## Texts -/

/-- The text is made of ways to write the pieces, with a gap between any two. -/
inductive Separated : List Piece → List Char → Prop
  | nil : Separated [] []
  | one {p : Piece} {cs : List Char} (h : Spells p cs) : Separated [p] cs
  | cons {p q : Piece} {ps : List Piece} {cs gap text : List Char} (h : Spells p cs)
      (hg : Gap gap) (hne : gap ≠ []) (hs : Separated (q :: ps) text) :
      Separated (p :: q :: ps) (cs ++ gap ++ text)

theorem lexFrom_spells {p : Piece} (h : Spells p cs) (hr : Apart rest) (o n : Nat) :
    ∃ t : Token, t.piece = p ∧ lexFrom ⟨cs ++ rest, o, n⟩ =
      { lexFrom ⟨rest, o + cs.length, n⟩ with
        tokens := t :: (lexFrom ⟨rest, o + cs.length, n⟩).tokens } :=
  ⟨_, rfl, lexFrom_token (next_of_lexeme (lexeme?_of_spells h hr) o n)⟩

/-- What is read of such a text, wherever it stands. -/
theorem lexFrom_separated {ps : List Piece} {text last : List Char} (h : Separated ps text)
    (hl : EndGap last) : ∀ o n, (lexFrom ⟨text ++ last, o, n⟩).illegal = none ∧
      (lexFrom ⟨text ++ last, o, n⟩).tokens.map Token.piece = ps := by
  induction h with
  | nil =>
    intro o n
    rw [List.nil_append, lexFrom_endGap hl]
    exact ⟨rfl, rfl⟩
  | one h =>
    intro o n
    obtain ⟨t, rfl, hlex⟩ := lexFrom_spells h hl.apart o n
    rw [hlex, lexFrom_endGap hl]
    exact ⟨rfl, rfl⟩
  | @cons p q ps cs gap text h hg hne _ ih =>
    intro o n
    obtain ⟨t, rfl, hlex⟩ := lexFrom_spells h (hg.apart_append hne (text ++ last)) o n
    obtain ⟨hlegal, htokens⟩ := ih (o + cs.length + gap.length) (n + gap.count '\n')
    rw [List.append_assoc, List.append_assoc, hlex, lexFrom_gap hg]
    exact ⟨hlegal, congrArg (t.piece :: ·) htokens⟩

/-- **Lexing undoes writing.**  A text that is made of ways to write some pieces, with gaps between
    them, has these pieces as its tokens, in this order, and no illegal character. -/
theorem lex_separated {ps : List Piece} {first text last : List Char} (hfirst : Gap first)
    (h : Separated ps text) (hlast : EndGap last) :
    (lex (String.ofList (first ++ text ++ last))).illegal = none ∧
      (lex (String.ofList (first ++ text ++ last))).tokens.map Token.piece = ps := by
  rw [lex, Cursor.start, String.toList_ofList, List.append_assoc, lexFrom_gap hfirst]
  exact lexFrom_separated h hlast _ _

/-- Quotes, points and signs that could be read otherwise: `iF # '"`, a newline, then `.5`, a tab,
    `"#'"`, a blank and `'''`, and a comment up to the end. -/
theorem lex_separated_quotes :
    let text := "iF# '\"\n.5\t\"#'\" '''#"
    (lex text).illegal = none ∧ (lex text).tokens.map Token.piece =
      [.word .if_, ⟨.number, ".5"⟩, ⟨.string, "#'"⟩, ⟨.char, "'"⟩] := by
  have hif : Spells (.word .if_) "iF".toList := .word .if_ rfl
  have hnumber : Spells ⟨.number, ".5"⟩ ".5".toList := .plain (by decide)
  have hstring : Spells ⟨.string, "#'"⟩ "\"#'\"".toList := .plain (by decide)
  have hchar : Spells ⟨.char, "'"⟩ "'''".toList := .plain (by decide)
  have htext := Separated.cons hif (@Gap.comment " '\"".toList [] (by decide) .nil) (by decide)
    (.cons hnumber (.blank (.inr (.inl rfl)) .nil) (by decide)
      (.cons hstring (.blank (.inl rfl) .nil) (by decide) (.one hchar)))
  have hlex := lex_separated .nil htext (@EndGap.unclosed [] [] .nil (by decide))
  have hsplit : "iF# '\"\n.5\t\"#'\" '''#".toList = [] ++ ("iF".toList ++
      '#' :: (" '\"".toList ++ ['\n']) ++ (".5".toList ++ ['\t'] ++ ("\"#'\"".toList ++ [' '] ++
      "'''".toList))) ++ ([] ++ ['#']) := rfl
  rwa [← hsplit, String.ofList_toList] at hlex

end ExprLang
