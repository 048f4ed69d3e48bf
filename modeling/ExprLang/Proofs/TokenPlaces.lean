/-
  Where the tokens of a text stand.

  * `Tiles read ts upTo`: behind the text `read`, the tokens `ts` stand one behind the other up to
    the end of the text `upTo`, with nothing but gaps between them; each knows its offset and line;
  * `TokenRule cs`: the text `cs` can be read in one go.  `Stuck cs`: nothing at the front of `cs`
    can be read;
  * `Cursor.next_cases` says what one step of the lexer does with the text;
  * `lex_exact`: the tokens of a text tile it up to its end, or up to where the lexer is stuck.
-/
import ExprLang.Proofs.Spellings

namespace ExprLang

variable {cs : List Char}

/-! ## Token rules -/

/-- The text can be read in one go: as a string, a character, a word, a number in one of three
    forms, a mark, or as a part of a gap. -/
inductive TokenRule : List Char → Prop
  | string {body : List Char} (h : '\n' ∉ body) : TokenRule ('"' :: (body ++ ['"']))
  | char {c : Char} (h : c ≠ '\n') : TokenRule ['\'', c, '\'']
  | word {c : Char} {cs : List Char} (hc : isWordStart c = true) (hcs : cs.all isWordPart = true) :
      TokenRule (c :: cs)
  | whole {d : Char} {ds : List Char} (h : (d :: ds).all Text.isDigit = true) : TokenRule (d :: ds)
  | point {d : Char} {ds fs : List Char} (h : (d :: ds).all Text.isDigit = true)
      (hf : fs.all Text.isDigit = true) : TokenRule (d :: ds ++ '.' :: fs)
  | fraction {d : Char} {ds : List Char} (h : (d :: ds).all Text.isDigit = true) :
      TokenRule ('.' :: d :: ds)
  | mark (m : Mark) : TokenRule m.text.toList
  | blank {c : Char} (h : c = ' ' ∨ c = '\t' ∨ c = '\n') : TokenRule [c]
  | comment {note : List Char} (h : '\n' ∉ note) : TokenRule ('#' :: note)

/-- Nothing at the front of the text can be read. -/
def Stuck (cs : List Char) : Prop := ∀ taken, taken <+: cs → ¬ TokenRule taken

namespace Lexeme

theorem dropWhile_body (rest : List Char) : ∀ {body : List Char}, '\n' ∉ body →
    ∃ rest', (body ++ '"' :: rest).dropWhile (fun c => c != '"' && c != '\n') = '"' :: rest'
  | [], _ => ⟨rest, by simp⟩
  | c :: body, h => by
    rw [List.mem_cons, not_or] at h
    by_cases hc : c = '"'
    · exact ⟨body ++ '"' :: rest, by simp [hc]⟩
    · obtain ⟨rest', hrest⟩ := dropWhile_body rest h.2
      exact ⟨rest', by simpa [hc, Ne.symm h.1] using hrest⟩

/-- A string may end before the quote that is meant, but it does end. -/
theorem string?_ne_none {body : List Char} (h : '\n' ∉ body) (rest : List Char) :
    string? ('"' :: (body ++ '"' :: rest)) ≠ none := by
  obtain ⟨rest', hrest⟩ := dropWhile_body rest h
  simp [string?, hrest]

theorem word?_ne_none {c : Char} (h : isWordStart c = true) (cs : List Char) :
    word? (c :: cs) ≠ none := by
  rw [word?, if_pos h]
  dsimp only
  split <;> simp

theorem number?_eq_none_iff {cs : List Char} : number? cs = none ↔ (numeral cs).1 = [] := by
  rw [number?]
  split
  · next heq => simp [heq]
  · next hne heq => simpa [heq] using hne

theorem number?_ne_none_of_digit {d : Char} (h : Text.isDigit d = true) (cs : List Char) :
    number? (d :: cs) ≠ none := by
  rw [Ne, number?_eq_none_iff, numeral, List.takeWhile_cons_of_pos h]
  dsimp only
  split <;> simp

theorem number?_ne_none_of_point {d : Char} (h : Text.isDigit d = true) (cs : List Char) :
    number? ('.' :: d :: cs) ≠ none := by
  have hpoint : Text.isDigit '.' = false := by decide
  rw [Ne, number?_eq_none_iff]
  simp [numeral, hpoint, h]

theorem mark?_ne_none {m : Mark} {cs : List Char} (h : m.text.toList <+: cs) : mark? cs ≠ none := by
  rw [mark?, Ne, Option.map_eq_none_iff, List.find?_eq_none]
  intro hnone
  have hm : m ∈ Mark.all := by cases m <;> decide
  exact hnone m hm (List.isPrefixOf_iff_prefix.2 h)

end Lexeme

open Lexeme

theorem stuck_of_lexeme? {c : Char} (h : lexeme? (c :: cs) = none) (hgap : startsGap c = false) :
    Stuck (c :: cs) := by
  simp only [lexeme?, Option.orElse_eq_orElse, Option.orElse_eq_or, Option.or_eq_none_iff] at h
  obtain ⟨hstring, hchar, hword, hnumber, hmark⟩ := h
  rintro taken ⟨rest, hrest⟩ hrule
  cases hrule with
  | @string body hbody =>
    rw [← hrest, List.cons_append, List.append_assoc] at hstring
    exact string?_ne_none hbody rest hstring
  | char hc =>
    rw [← hrest] at hchar
    simp [char?, hc] at hchar
  | word hc _ =>
    rw [← hrest] at hword
    exact word?_ne_none hc _ hword
  | whole hd =>
    rw [← hrest] at hnumber
    exact number?_ne_none_of_digit (List.all_eq_true.1 hd _ (by simp)) _ hnumber
  | point hd _ =>
    rw [← hrest] at hnumber
    exact number?_ne_none_of_digit (List.all_eq_true.1 hd _ (by simp)) _ hnumber
  | fraction hd =>
    rw [← hrest] at hnumber
    exact number?_ne_none_of_point (List.all_eq_true.1 hd _ (by simp)) _ hnumber
  | mark m => exact mark?_ne_none ⟨rest, hrest⟩ hmark
  | blank hc =>
    obtain rfl := (List.cons.inj hrest).1
    rcases hc with rfl | rfl | rfl <;> cases hgap
  | comment _ =>
    obtain rfl := (List.cons.inj hrest).1
    cases hgap

/-! ## Lexemes are spelled -/

namespace Lexeme

variable {cs : List Char} {l : Lexeme}

theorem string?_spells (h : string? cs = some l) :
    cs = l.spelling ++ l.rest ∧ Spells ⟨l.kind, l.value⟩ l.spelling := by
  unfold string? at h
  split at h
  · next cs =>
    dsimp only at h
    split at h
    · next rest hrest =>
      cases h
      refine ⟨?_, ?_⟩
      · have happ := List.takeWhile_append_dropWhile (p := fun c => c != '"' && c != '\n') (l := cs)
        rw [hrest] at happ
        simp [happ]
      · have hspells := Spells.plain (p := ⟨.string, String.ofList (cs.takeWhile
          fun c => c != '"' && c != '\n')⟩) (by simp [Piece.valid, isStringText])
        simpa [Piece.spelling] using hspells
    · cases h
  · cases h

theorem char?_spells (h : char? cs = some l) :
    cs = l.spelling ++ l.rest ∧ Spells ⟨l.kind, l.value⟩ l.spelling := by
  unfold char? at h
  split at h
  · next c rest =>
    split at h
    · cases h
    · next hc =>
      cases h
      have hspells := Spells.plain (p := ⟨.char, String.ofList [c]⟩)
        (by simpa [Piece.valid, isCharText] using hc)
      exact ⟨rfl, by simpa [Piece.spelling] using hspells⟩
  · cases h

theorem word?_spells (h : word? cs = some l) :
    cs = l.spelling ++ l.rest ∧ Spells ⟨l.kind, l.value⟩ l.spelling := by
  unfold word? at h
  split at h
  · next c cs =>
    split at h
    · next hc =>
      dsimp only at h
      split at h
      · next w hw =>
        cases h
        have htext : w.text = String.ofList ((c :: cs.takeWhile isWordPart).map Char.toUpper) :=
          eq_of_beq (List.find?_some (p := fun k : Keyword => k.text == _) hw)
        exact ⟨by simp, .word w (by rw [htext, String.toList_ofList])⟩
      · next hw =>
        cases h
        have hspells := Spells.plain (p := .name (String.ofList (c :: cs.takeWhile isWordPart)))
          (by simpa [Piece.valid, Piece.name, isName, hc] using hw)
        exact ⟨by simp, by simpa [Piece.spelling, Piece.name] using hspells⟩
    · cases h
  · cases h

theorem isNumeral_whole {ds : List Char} (h : ds.all Text.isDigit = true) (hne : ds ≠ []) :
    isNumeral (String.ofList ds) = true := by
  have htake : ds.takeWhile Text.isDigit = ds := List.takeWhile_eq_self_iff.2 (List.all_eq_true.1 h)
  have hdrop : ds.dropWhile Text.isDigit = [] := List.dropWhile_eq_nil_iff.2 (List.all_eq_true.1 h)
  simpa [isNumeral, htake, hdrop] using hne

theorem isNumeral_point {ds fs : List Char} (h : ds.all Text.isDigit = true)
    (hf : fs.all Text.isDigit = true) (hne : (ds.isEmpty && fs.isEmpty) = false) :
    isNumeral (String.ofList (ds ++ '.' :: fs)) = true := by
  have hpoint : Text.isDigit '.' = false := by decide
  have htake : (ds ++ '.' :: fs).takeWhile Text.isDigit = ds := by
    rw [List.takeWhile_append_of_pos (List.all_eq_true.1 h)]
    simp [hpoint]
  have hdrop : (ds ++ '.' :: fs).dropWhile Text.isDigit = '.' :: fs := by
    rw [List.dropWhile_append_of_pos (List.all_eq_true.1 h)]
    simp [hpoint]
  simp only [isNumeral, String.toList_ofList, htake, hdrop, hf, hne]
  rfl

theorem isNumeral_numeral (h : (numeral cs).1 ≠ []) :
    isNumeral (String.ofList (numeral cs).1) = true := by
  rw [numeral] at h ⊢
  dsimp only at h ⊢
  split at h
  · split at h
    · exact absurd rfl h
    · next hne =>
      rw [if_neg hne]
      exact isNumeral_point List.all_takeWhile List.all_takeWhile (Bool.eq_false_iff.2 hne)
  · exact isNumeral_whole List.all_takeWhile h

theorem number?_spells (h : number? cs = some l) :
    cs = l.spelling ++ l.rest ∧ Spells ⟨l.kind, l.value⟩ l.spelling := by
  have happ := numeral_append cs
  unfold number? at h
  split at h
  · cases h
  · next spelling rest hne heq =>
    cases h
    rw [heq] at happ
    have hfirst : (numeral cs).1 ≠ [] := by
      rw [heq]
      simpa using hne
    have hnumeral := isNumeral_numeral hfirst
    rw [heq] at hnumeral
    have hspells := Spells.plain (p := ⟨.number, String.ofList spelling⟩) hnumeral
    exact ⟨happ.symm, by simpa [Piece.spelling] using hspells⟩

theorem mark?_spells (h : mark? cs = some l) :
    cs = l.spelling ++ l.rest ∧ Spells ⟨l.kind, l.value⟩ l.spelling := by
  obtain ⟨m, hm, rfl⟩ := Option.map_eq_some_iff.1 h
  have hpre : m.text.toList <+: cs :=
    List.isPrefixOf_iff_prefix.1 (by simpa using List.find?_some hm)
  have hspells := Spells.plain (p := .mark m) (by simp [Piece.valid, Piece.mark])
  exact ⟨(List.prefix_iff_eq_append.1 hpre).symm, hspells⟩

end Lexeme

/-- A lexeme is a way to write its token. -/
theorem lexeme?_spells {l : Lexeme} (h : lexeme? cs = some l) :
    cs = l.spelling ++ l.rest ∧ Spells ⟨l.kind, l.value⟩ l.spelling := by
  simp only [lexeme?, Option.orElse_eq_orElse, Option.orElse_eq_or, Option.or_eq_some_iff] at h
  rcases h with h | ⟨-, h | ⟨-, h | ⟨-, h | ⟨-, h⟩⟩⟩⟩
  · exact string?_spells h
  · exact char?_spells h
  · exact word?_spells h
  · exact number?_spells h
  · exact mark?_spells h

/-! ## Steps of the lexer -/

theorem EndGap.blank {c : Char} {gap : List Char} (hc : c = ' ' ∨ c = '\t' ∨ c = '\n') :
    EndGap gap → EndGap (c :: gap)
  | .closed h => .closed (.blank hc h)
  | .unclosed h hn => .unclosed (.blank hc h) hn

theorem EndGap.comment {note gap : List Char} (hn : '\n' ∉ note) :
    EndGap gap → EndGap ('#' :: (note ++ '\n' :: gap))
  | .closed h => .closed (.comment hn h)
  | .unclosed h hn' => by simpa using EndGap.unclosed (.comment hn h) hn'

/-- A text is a gap, or goes on behind a gap with something else. -/
theorem endGap_or_split (cs : List Char) :
    EndGap cs ∨ ∃ gap c rest, cs = gap ++ c :: rest ∧ Gap gap ∧ startsGap c = false := by
  -- Comments are skipped in one go, so the induction is on the length.
  induction hlen : cs.length using Nat.strong_induction_on generalizing cs with
  | _ n ih =>
  subst hlen
  cases cs with
  | nil => exact .inl (.closed .nil)
  | cons c cs =>
    by_cases hblank : c = ' ' ∨ c = '\t' ∨ c = '\n'
    · rcases ih cs.length (by simp) cs rfl with h | ⟨gap, d, rest, rfl, hgap, hd⟩
      · exact .inl (h.blank hblank)
      · exact .inr ⟨c :: gap, d, rest, rfl, .blank hblank hgap, hd⟩
    by_cases hnote : c = '#'
    · subst hnote
      have hcs : cs.takeWhile (· != '\n') ++ cs.dropWhile (· != '\n') = cs :=
        List.takeWhile_append_dropWhile
      have hn : '\n' ∉ cs.takeWhile (· != '\n') := by
        intro hmem
        simpa using List.all_eq_true.1 List.all_takeWhile _ hmem
      rcases hdrop : cs.dropWhile (· != '\n') with _ | ⟨d, rest⟩
      · rw [hdrop, List.append_nil] at hcs
        exact .inl (.unclosed .nil (hcs ▸ hn))
      · obtain rfl : d = '\n' := by
          have hhead := List.head_dropWhile_not (p := (· != '\n')) (l := cs) (by simp [hdrop])
          simpa [hdrop] using hhead
        rw [hdrop] at hcs
        have hlt : rest.length < ('#' :: cs).length := by
          rw [← hcs]
          simp
          omega
        rw [← hcs]
        rcases ih rest.length hlt rest rfl with h | ⟨gap, e, rest, rfl, hgap, he⟩
        · exact .inl (h.comment hn)
        · exact .inr ⟨_, e, rest, by simp, .comment hn hgap, he⟩
    · refine .inr ⟨[], c, cs, rfl, .nil, ?_⟩
      simp only [not_or] at hblank
      simp [startsGap, hblank, hnote]

/-- **What a cursor finds behind a gap**: a lexeme, nothing, or a place where it is stuck. -/
theorem Cursor.next_cases (here : Cursor) :
    (∃ (gap : List Char) (l : Lexeme), Gap gap ∧ here.rest = gap ++ l.spelling ++ l.rest ∧
      Spells ⟨l.kind, l.value⟩ l.spelling ∧
      here.next = .token ⟨l.kind, l.value, here.line + gap.count '\n', here.offset + gap.length⟩
        ⟨l.rest, here.offset + gap.length + l.spelling.length, here.line + gap.count '\n'⟩) ∨
    (∃ after, EndGap here.rest ∧ here.next = .finished after ∧
      after.line = here.line + here.rest.count '\n') ∨
    ∃ gap c rest after, Gap gap ∧ here.rest = gap ++ c :: rest ∧ Stuck (c :: rest) ∧
      here.next = .illegal c after ∧ after.line = here.line + gap.count '\n' := by
  obtain ⟨cs, o, n⟩ := here
  rcases endGap_or_split cs with h | ⟨gap, c, rest, rfl, hgap, hc⟩
  · exact .inr (.inl ⟨⟨[], o + cs.length, n + cs.count '\n'⟩, h,
      by simp only [Cursor.next, skipGap_endGap h], rfl⟩)
  · have hskip : skipGap false o n (gap ++ c :: rest) =
        ⟨c :: rest, o + gap.length, n + gap.count '\n'⟩ := by
      rw [skipGap_gap _ hgap, skipGap_eq_self hc]
    cases hlex : lexeme? (c :: rest) with
    | none =>
      exact .inr (.inr ⟨gap, c, rest, ⟨c :: rest, o + gap.length, n + gap.count '\n'⟩, hgap, rfl,
        stuck_of_lexeme? hlex hc, by simp only [Cursor.next, hskip, hlex], rfl⟩)
    | some l =>
      obtain ⟨happ, hspells⟩ := lexeme?_spells hlex
      exact .inl ⟨gap, l, hgap, by rw [List.append_assoc, ← happ], hspells,
        by simp only [Cursor.next, hskip, hlex]⟩

/-! ## Texts -/

/-- Behind the text `read`, the tokens stand one behind the other up to the end of `upTo`, with
    gaps between them.  The offset of a token is the length of the text before it, and its line is
    one more than there are newlines in that text. -/
inductive Tiles : List Char → List Token → List Char → Prop
  | nil (read : List Char) : Tiles read [] read
  | cons {read gap lexeme upTo : List Char} {t : Token} {ts : List Token} (hg : Gap gap)
      (hs : Spells t.piece lexeme) (ho : t.offset = (read ++ gap).length)
      (hl : t.line = 1 + (read ++ gap).count '\n') (h : Tiles (read ++ gap ++ lexeme) ts upTo) :
      Tiles read (t :: ts) upTo

theorem Spells.newline_not_mem {p : Piece} (h : Spells p cs) : '\n' ∉ cs := by
  have hall : ∀ {f : Char → Bool} {cs : List Char}, cs.all f = true → f '\n' = false → '\n' ∉ cs :=
    fun h hf hmem => by cases hf.symm.trans (List.all_eq_true.1 h _ hmem)
  cases h with
  | word w h =>
    intro hmem
    have hupper : '\n' ∈ w.text.toList := h ▸ List.mem_map_of_mem (f := Char.toUpper) hmem
    revert hupper
    cases w <;> decide
  | plain h =>
    obtain ⟨k, s⟩ := p
    cases k with
    | number =>
      obtain ⟨ds, hds, ⟨hs, -⟩ | ⟨fs, hfs, hs, -⟩⟩ := of_isNumeral h
      · rw [Piece.spelling, hs]
        exact hall hds (by decide)
      · have hdigits := hall hds (by decide)
        have hfraction := hall hfs (by decide)
        rw [Piece.spelling, hs]
        simp [hdigits, hfraction]
    | string => simpa [Piece.spelling] using hall h rfl
    | char =>
      simp only [Piece.valid, isCharText] at h
      split at h
      · next c hs =>
        have hc : '\n' ≠ c := by
          rintro rfl
          cases h
        simp [Piece.spelling, hs, hc]
      · cases h
    | ident =>
      simp only [Piece.valid, isName] at h
      split at h
      · cases h
      · next c cs hs =>
        simp only [Bool.and_eq_true] at h
        have hc : '\n' ≠ c := by
          rintro rfl
          cases h.1.1
        simpa [Piece.spelling, hs, hc] using hall h.1.2 (by decide)
    | word w =>
      obtain rfl : s = w.text := by simpa [Piece.valid] using h
      rw [Piece.spelling]
      cases w <;> decide
    | mark m =>
      obtain rfl : s = m.text := by simpa [Piece.valid] using h
      rw [Piece.spelling]
      cases m <;> decide

theorem lexFrom_exact (here : Cursor) {read : List Char} (ho : here.offset = read.length)
    (hl : here.line = 1 + read.count '\n') :
    ∃ upTo gap rest, read ++ here.rest = upTo ++ gap ++ rest ∧
      Tiles read (lexFrom here).tokens upTo ∧
      (lexFrom here).line = 1 + (upTo ++ gap).count '\n' ∧ (lexFrom here).illegal = rest.head? ∧
      (rest = [] ∧ EndGap gap ∨ rest ≠ [] ∧ Gap gap ∧ Stuck rest) := by
  induction hlen : here.rest.length using Nat.strong_induction_on generalizing here read with
  | _ n ih =>
  subst hlen
  rcases here.next_cases with ⟨gap, l, hgap, hrest, hspells, hnext⟩ | ⟨after, hend, hnext, hline⟩ |
    ⟨gap, c, rest, after, hgap, hrest, hstuck, hnext, hline⟩
  · have hcount : l.spelling.count '\n' = 0 := List.count_eq_zero.2 hspells.newline_not_mem
    obtain ⟨upTo, last, rest, happ, htiles, hline, hillegal, hlast⟩ :=
      @ih _ (Cursor.rest_lt hnext) _ (read ++ gap ++ l.spelling)
        (by simp [ho, Nat.add_assoc]) (by simp [hl, hcount]; omega) rfl
    rw [lexFrom_token hnext]
    refine ⟨upTo, last, rest, ?_, ?_, hline, hillegal, hlast⟩
    · rw [← happ, hrest]
      simp
    · exact .cons hgap hspells (by simp [ho]) (by simp [hl]; omega) htiles
  · rw [lexFrom_finished hnext]
    exact ⟨read, here.rest, [], by simp, .nil read, by simp [hline, hl]; omega, rfl,
      .inl ⟨rfl, hend⟩⟩
  · rw [lexFrom_illegal hnext]
    exact ⟨read, gap, c :: rest, by simp [hrest], .nil read, by simp [hline, hl]; omega, rfl,
      .inr ⟨by simp, hgap, hstuck⟩⟩

/-- **Lexing loses nothing, and places are exact.**  The tokens tile the text up to a gap.  The gap
    goes to the end of the text, or to a character at which nothing can be read, and which is the
    one that is reported.  The line at the end counts all newlines up to there. -/
theorem lex_exact (text : String) :
    ∃ upTo gap rest, text.toList = upTo ++ gap ++ rest ∧ Tiles [] (lex text).tokens upTo ∧
      (lex text).line = 1 + (upTo ++ gap).count '\n' ∧ (lex text).illegal = rest.head? ∧
      (rest = [] ∧ EndGap gap ∨ rest ≠ [] ∧ Gap gap ∧ Stuck rest) :=
  @lexFrom_exact (.start text) [] rfl rfl

end ExprLang
