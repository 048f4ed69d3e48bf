/-
  Spelled pieces are lexed again.

  * `lexeme?_spelling`: at the front of a text stands the lexeme of the piece that is spelled there,
    if the text ends behind it or goes on with a blank, tab, newline or comment;
  * `lex_spell`: so the tokens of spelled pieces are these pieces.
-/
import ExprLang.Proofs.Printing
import Mathlib

namespace ExprLang

variable {c : Char} {here after : Cursor}

/-! ## What stands behind a piece -/

/-- The characters that can stand between two pieces. -/
def startsGap (c : Char) : Bool := c == ' ' || c == '\t' || c == '\n' || c == '#'

/-- The text is at its end, or goes on with a gap. -/
def Apart (rest : List Char) : Prop := ∀ c ∈ rest.head?, startsGap c = true

theorem apart_nil : Apart [] := by
  rintro c ⟨⟩

theorem of_startsGap (h : startsGap c = true) : c = ' ' ∨ c = '\t' ∨ c = '\n' ∨ c = '#' := by
  simpa [startsGap, or_assoc] using h

theorem isWordPart_of_startsGap (h : startsGap c = true) : isWordPart c = false := by
  rcases of_startsGap h with rfl | rfl | rfl | rfl <;> decide

theorem isDigit_of_startsGap (h : startsGap c = true) : Text.isDigit c = false := by
  rcases of_startsGap h with rfl | rfl | rfl | rfl <;> decide

section

variable {f : Char → Bool} {cs rest : List Char}

theorem takeWhile_apart (hcs : cs.all f = true) (hf : ∀ c, startsGap c = true → f c = false)
    (hr : Apart rest) : (cs ++ rest).takeWhile f = cs := by
  rw [List.takeWhile_append_of_pos (List.all_eq_true.1 hcs)]
  cases rest with
  | nil => exact List.append_nil cs
  | cons c rest => simp [hf c (hr c rfl)]

theorem dropWhile_apart (hcs : cs.all f = true) (hf : ∀ c, startsGap c = true → f c = false)
    (hr : Apart rest) : (cs ++ rest).dropWhile f = rest := by
  rw [List.dropWhile_append_of_pos (List.all_eq_true.1 hcs)]
  cases rest with
  | nil => rfl
  | cons c rest => simp [hf c (hr c rfl)]

end

/-! ## Lexemes -/

namespace Lexeme

variable {c : Char} {rest : List Char} {s : String}

theorem string?_eq_none (cs : List Char) (h : c ≠ '"') : string? (c :: cs) = none := by
  rw [string?]
  rintro _ ⟨⟩
  exact h rfl

theorem char?_eq_none (cs : List Char) (h : c ≠ '\'') : char? (c :: cs) = none := by
  rw [char?]
  rintro _ _ ⟨⟩
  exact h rfl

theorem word?_eq_none (cs : List Char) (h : isWordStart c = false) : word? (c :: cs) = none := by
  rw [word?, h]
  rfl

theorem string?_append {body : List Char} (h : (body.all fun c => c != '"' && c != '\n') = true)
    (rest : List Char) :
    string? ('"' :: (body ++ '"' :: rest)) =
      some ⟨.string, String.ofList body, '"' :: body ++ ['"'], rest⟩ := by
  have htake : (body ++ '"' :: rest).takeWhile (fun c => c != '"' && c != '\n') = body := by
    rw [List.takeWhile_append_of_pos (List.all_eq_true.1 h)]
    simp
  have hdrop : (body ++ '"' :: rest).dropWhile (fun c => c != '"' && c != '\n') = '"' :: rest := by
    rw [List.dropWhile_append_of_pos (List.all_eq_true.1 h)]
    simp
  simp only [string?, htake, hdrop]

theorem word?_append {cs : List Char} (hc : isWordStart c = true) (hcs : cs.all isWordPart = true)
    (hr : Apart rest) : word? (c :: (cs ++ rest)) =
      some ((Keyword.ofUpper? (String.ofList ((c :: cs).map Char.toUpper))).elim
        ⟨.ident, String.ofList (c :: cs), c :: cs, rest⟩ fun w =>
          ⟨.word w, w.text, c :: cs, rest⟩) := by
  simp only [word?, hc, takeWhile_apart hcs (fun _ => isWordPart_of_startsGap) hr,
    dropWhile_apart hcs (fun _ => isWordPart_of_startsGap) hr, if_true]
  cases Keyword.ofUpper? (String.ofList ((c :: cs).map Char.toUpper)) <;> rfl

theorem of_isNumeral (h : isNumeral s = true) :
    ∃ whole, whole.all Text.isDigit = true ∧ (s.toList = whole ∧ whole ≠ [] ∨
      ∃ fraction, fraction.all Text.isDigit = true ∧ s.toList = whole ++ '.' :: fraction ∧
        (whole.isEmpty && fraction.isEmpty) = false) := by
  have hsplit : s.toList.takeWhile Text.isDigit ++ s.toList.dropWhile Text.isDigit = s.toList :=
    List.takeWhile_append_dropWhile
  refine ⟨s.toList.takeWhile Text.isDigit, List.all_takeWhile, ?_⟩
  rw [isNumeral] at h
  split at h
  · next hdrop =>
    rw [hdrop, List.append_nil] at hsplit
    exact .inl ⟨hsplit.symm, by simpa using h⟩
  · next c fraction hdrop =>
    simp only [Bool.and_eq_true, beq_iff_eq, Bool.not_eq_true'] at h
    obtain ⟨⟨rfl, hfraction⟩, hne⟩ := h
    rw [hdrop] at hsplit
    exact .inr ⟨fraction, hfraction, hsplit.symm, hne⟩

/-- The numeral that is spelled is read in full. -/
theorem numeral_append_apart (h : isNumeral s = true) (hr : Apart rest) :
    numeral (s.toList ++ rest) = (s.toList, rest) := by
  have hgap : ∀ c, startsGap c = true → Text.isDigit c = false := fun _ => isDigit_of_startsGap
  have hpoint : Text.isDigit '.' = false := by decide
  obtain ⟨whole, hwhole, ⟨hs, -⟩ | ⟨fraction, hfraction, hs, hne⟩⟩ := of_isNumeral h
  · rw [hs, numeral]
    simp only [takeWhile_apart hwhole hgap hr, dropWhile_apart hwhole hgap hr]
    split
    · exact absurd (hr '.' rfl) (by decide)
    · rfl
  · have htake : (whole ++ '.' :: (fraction ++ rest)).takeWhile Text.isDigit = whole := by
      rw [List.takeWhile_append_of_pos (List.all_eq_true.1 hwhole)]
      simp [hpoint]
    have hdrop : (whole ++ '.' :: (fraction ++ rest)).dropWhile Text.isDigit =
        '.' :: (fraction ++ rest) := by
      rw [List.dropWhile_append_of_pos (List.all_eq_true.1 hwhole)]
      simp [hpoint]
    rw [hs, List.append_assoc, List.cons_append, numeral]
    simp only [htake, hdrop, takeWhile_apart hfraction hgap hr, dropWhile_apart hfraction hgap hr,
      hne]
    rfl

theorem isDigit_of_isWordStart (h : isWordStart c = true) : Text.isDigit c = false := by
  have hascii : ∀ n < 128, isWordStart (Char.ofNat n) = true →
      Text.isDigit (Char.ofNat n) = false := by
    decide +kernel
  have hlt : c.toNat < 128 := by
    simp only [isWordStart, Char.isAlpha, Char.isUpper, Char.isLower, Bool.or_eq_true,
      Bool.and_eq_true, decide_eq_true_eq, beq_iff_eq] at h
    rcases h with (⟨-, h⟩ | ⟨-, h⟩) | rfl
    · exact Nat.lt_of_le_of_lt h (by decide)
    · exact Nat.lt_of_le_of_lt h (by decide)
    · decide
  have hc := hascii c.toNat hlt
  rw [Char.ofNat_toNat] at hc
  exact hc h

/-- What a numeral starts with starts nothing else before it. -/
theorem number?_append (h : isNumeral s = true) (hr : Apart rest) :
    lexeme? (s.toList ++ rest) = some ⟨.number, s, s.toList, rest⟩ := by
  have hnumeral := numeral_append_apart h hr
  have hstart : ∃ c cs, s.toList = c :: cs ∧ (Text.isDigit c = true ∨ c = '.') := by
    obtain ⟨whole, hwhole, ⟨hs, hne⟩ | ⟨fraction, -, hs, -⟩⟩ := of_isNumeral h
    · obtain ⟨c, cs, rfl⟩ := List.exists_cons_of_ne_nil hne
      exact ⟨c, cs, hs, .inl (List.all_eq_true.1 hwhole c (by simp))⟩
    · cases whole with
      | nil => exact ⟨'.', fraction, hs, .inr rfl⟩
      | cons c cs => exact ⟨c, _, hs, .inl (List.all_eq_true.1 hwhole c (by simp))⟩
  obtain ⟨c, cs, hs, hc⟩ := hstart
  have hword : isWordStart c = false := by
    rcases hc with hc | rfl
    · refine Bool.eq_false_iff.2 fun hword => ?_
      cases hc.symm.trans (isDigit_of_isWordStart hword)
    · decide
  have hquotes : c ≠ '"' ∧ c ≠ '\'' := by
    refine ⟨?_, ?_⟩ <;> rintro rfl <;> rcases hc with hc | hc <;> revert hc <;> decide
  have hnumber : number? (s.toList ++ rest) = some ⟨.number, s, s.toList, rest⟩ := by
    rw [number?, hnumeral, hs]
    simp [← hs]
  rw [hs, List.cons_append] at hnumber ⊢
  simp [lexeme?, string?_eq_none _ hquotes.1, char?_eq_none _ hquotes.2, word?_eq_none _ hword,
    hnumber]

theorem lexeme?_word {cs : List Char} (hc : isWordStart c = true) (hcs : cs.all isWordPart = true)
    (hr : Apart rest) : lexeme? (c :: cs ++ rest) =
      some ((Keyword.ofUpper? (String.ofList ((c :: cs).map Char.toUpper))).elim
        ⟨.ident, String.ofList (c :: cs), c :: cs, rest⟩ fun w =>
          ⟨.word w, w.text, c :: cs, rest⟩) := by
  have hquotes : c ≠ '"' ∧ c ≠ '\'' := by
    refine ⟨?_, ?_⟩ <;> rintro rfl <;> revert hc <;> decide
  rw [List.cons_append, lexeme?, string?_eq_none _ hquotes.1, char?_eq_none _ hquotes.2,
    word?_append hc hcs hr]
  rfl

theorem keyword_spelling (w : Keyword) : ∃ c cs, w.text.toList = c :: cs ∧ isWordStart c = true ∧
    cs.all isWordPart = true ∧
      Keyword.ofUpper? (String.ofList ((c :: cs).map Char.toUpper)) = some w := by
  cases w <;> exact ⟨_, _, rfl, by decide, by decide, by decide⟩

theorem lexeme?_mark (m : Mark) (hr : Apart rest) :
    lexeme? (m.text.toList ++ rest) = some ⟨.mark m, m.text, m.text.toList, rest⟩ := by
  cases rest with
  | nil => cases m <;> rfl
  | cons c rest =>
    rcases of_startsGap (hr c rfl) with rfl | rfl | rfl | rfl
    all_goals cases m <;> rfl

end Lexeme

open Lexeme

theorem lexeme?_spelling {p : Piece} {rest : List Char} (h : p.valid = true) (hr : Apart rest) :
    lexeme? (p.spelling ++ rest) = some ⟨p.kind, p.text, p.spelling, rest⟩ := by
  obtain ⟨k, s⟩ := p
  cases k with
  | number => exact number?_append h hr
  | string =>
    have hbody := string?_append h rest
    simp only [Piece.spelling, List.cons_append, List.append_assoc, List.nil_append, lexeme?, hbody]
    simp
  | char =>
    simp only [Piece.valid, isCharText] at h
    split at h
    · next c hs =>
      simp only [Piece.spelling, hs, List.cons_append, List.nil_append, lexeme?]
      rw [string?_eq_none _ (by decide), char?, if_neg (by simpa using h), ← hs]
      simp
    · cases h
  | ident =>
    simp only [Piece.valid, isName] at h
    split at h
    · cases h
    · next c cs hs =>
      simp only [Bool.and_eq_true, Option.isNone_iff_eq_none] at h
      have hword := lexeme?_word h.1.1 h.1.2 hr
      rw [h.2, ← hs, String.ofList_toList] at hword
      exact hword
  | word w =>
    obtain rfl : s = w.text := by simpa [Piece.valid] using h
    obtain ⟨c, cs, hs, hc, hcs, hw⟩ := keyword_spelling w
    simp only [Piece.spelling, hs, lexeme?_word hc hcs hr, hw, Option.elim_some]
  | mark m =>
    obtain rfl : s = m.text := by simpa [Piece.valid] using h
    exact lexeme?_mark m hr

/-! ## Texts -/

theorem lexeme?_gap (cs : List Char) (h : startsGap c = true) : lexeme? (c :: cs) = none := by
  rcases of_startsGap h with rfl | rfl | rfl | rfl <;> rfl

theorem skipGap_eq_self (h : startsGap c = false) (cs : List Char) (o n : Nat) :
    skipGap false o n (c :: cs) = ⟨c :: cs, o, n⟩ := by
  simp only [startsGap, Bool.or_eq_false_iff, beq_eq_false_iff_ne] at h
  rw [skipGap]
  · simp [h]
  · exact h.1.2

/-- Where a lexeme stands, nothing is skipped. -/
theorem next_of_lexeme {cs : List Char} {l : Lexeme} (h : lexeme? cs = some l) (o n : Nat) :
    Cursor.next ⟨cs, o, n⟩ = .token ⟨l.kind, l.value, n, o⟩ ⟨l.rest, o + l.spelling.length, n⟩ := by
  cases cs with
  | nil => cases h
  | cons c cs =>
    have hgap : startsGap c = false := by
      refine Bool.eq_false_iff.2 fun hgap => ?_
      cases h.symm.trans (lexeme?_gap cs hgap)
    simp only [Cursor.next, skipGap_eq_self hgap, h]

theorem lexFrom_token {t : Token} (h : here.next = .token t after) :
    lexFrom here = { lexFrom after with tokens := t :: (lexFrom after).tokens } := by
  rw [lexFrom]
  split
  · next heq =>
    cases h.symm.trans heq
    rfl
  · next heq => cases h.symm.trans heq
  · next heq => cases h.symm.trans heq

theorem lexFrom_finished (h : here.next = .finished after) :
    lexFrom here = ⟨[], none, after.line⟩ := by
  rw [lexFrom]
  split
  · next heq => cases h.symm.trans heq
  · next heq =>
    cases h.symm.trans heq
    rfl
  · next heq => cases h.symm.trans heq

theorem lexFrom_illegal (h : here.next = .illegal c after) :
    lexFrom here = ⟨[], some c, after.line⟩ := by
  rw [lexFrom]
  split
  · next heq => cases h.symm.trans heq
  · next heq => cases h.symm.trans heq
  · next heq =>
    cases h.symm.trans heq
    rfl

theorem lexFrom_nil (o n : Nat) : lexFrom ⟨[], o, n⟩ = ⟨[], none, n⟩ := by
  rw [lexFrom]
  rfl

theorem lexFrom_blank (cs : List Char) (o n : Nat) :
    lexFrom ⟨' ' :: cs, o, n⟩ = lexFrom ⟨cs, o + 1, n⟩ := by
  have hnext : Cursor.next ⟨' ' :: cs, o, n⟩ = Cursor.next ⟨cs, o + 1, n⟩ := rfl
  rw [lexFrom, lexFrom, hnext]

theorem lexFrom_spelling {p : Piece} {rest : List Char} (h : p.valid = true) (hr : Apart rest)
    (o n : Nat) : ∃ t : Token, t.piece = p ∧ ∃ k, lexFrom ⟨p.spelling ++ rest, o, n⟩ =
      { lexFrom ⟨rest, k, n⟩ with tokens := t :: (lexFrom ⟨rest, k, n⟩).tokens } :=
  ⟨_, rfl, _, lexFrom_token (next_of_lexeme (lexeme?_spelling h hr) o n)⟩

theorem lexFrom_spell : ∀ {ps : List Piece}, ps.all Piece.valid = true → ∀ o n,
    ∃ ts, lexFrom ⟨spell ps, o, n⟩ = ⟨ts, none, n⟩ ∧ ts.map Token.piece = ps
  | [], _, o, n => ⟨[], lexFrom_nil o n, rfl⟩
  | [p], h, o, n => by
    have hp : p.valid = true := List.all_eq_true.1 h p (by simp)
    obtain ⟨t, ht, k, hlex⟩ := lexFrom_spelling hp apart_nil o n
    rw [List.append_nil, lexFrom_nil] at hlex
    exact ⟨[t], hlex, congrArg (· :: []) ht⟩
  | p :: q :: ps, h, o, n => by
    rw [List.all_cons, Bool.and_eq_true] at h
    have hr : Apart (' ' :: spell (q :: ps)) := by
      rintro c ⟨⟩
      rfl
    obtain ⟨t, ht, k, hlex⟩ := lexFrom_spelling h.1 hr o n
    obtain ⟨ts, hts, hps⟩ := lexFrom_spell h.2 (k + 1) n
    rw [lexFrom_blank, hts] at hlex
    refine ⟨t :: ts, hlex, ?_⟩
    rw [List.map_cons, ht, hps]

/-- **The tokens of spelled pieces are these pieces.** -/
theorem lex_spell {ps : List Piece} (h : ps.all Piece.valid = true) :
    (lex (String.ofList (spell ps))).illegal = none ∧
      (lex (String.ofList (spell ps))).tokens.map Token.piece = ps := by
  obtain ⟨ts, hts, hps⟩ := lexFrom_spell h 0 1
  rw [lex, Cursor.start, String.toList_ofList, hts]
  exact ⟨rfl, hps⟩

end ExprLang
