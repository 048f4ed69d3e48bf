/-
  From text to tokens.

  A cursor stands at a place of the text.  To move on, it first skips blanks, tabs, newlines and
  comments (`skipGap`), and then takes the lexeme that stands there (`lexeme?`): a string, a
  character, a word, a number, or a mark, tried in this order.

  * `Cursor.next` gives the next token, the end of the text, or the character at which no lexeme
    starts; the cursor then stays in front of that character;
  * `lex` gives all tokens of a text up to its end or to such a character.

  `Cursor.rest_lt` says that a token always uses up some of the text.
-/
import ExprLang.Token
import ExprLang.Text.Digit

namespace ExprLang

/-! ## Lexemes -/

/-- A lexeme at the front of a text: its kind, its value, how it is spelled, and what follows. -/
structure Lexeme where
  kind : Kind
  value : String
  spelling : List Char
  rest : List Char

def isWordStart (c : Char) : Bool := c.isAlpha || c == '_'

def isWordPart (c : Char) : Bool := c.isAlphanum || c == '_'

namespace Lexeme

/-- A string: everything up to the next double quote, which must stand on the same line. -/
def string? : List Char → Option Lexeme
  | '"' :: cs =>
    let body := cs.takeWhile fun c => c != '"' && c != '\n'
    match cs.dropWhile fun c => c != '"' && c != '\n' with
    | '"' :: rest => some ⟨.string, String.ofList body, '"' :: body ++ ['"'], rest⟩
    | _ => none
  | _ => none

/-- A character: anything but a newline between two single quotes. -/
def char? : List Char → Option Lexeme
  | '\'' :: c :: '\'' :: rest =>
    if c = '\n' then none else some ⟨.char, String.ofList [c], ['\'', c, '\''], rest⟩
  | _ => none

/-- An identifier or, in any letter case, a reserved word. -/
def word? : List Char → Option Lexeme
  | c :: cs =>
    if isWordStart c then
      let spelling := c :: cs.takeWhile isWordPart
      let rest := cs.dropWhile isWordPart
      match Keyword.ofUpper? (String.ofList (spelling.map Char.toUpper)) with
      | some w => some ⟨.word w, w.text, spelling, rest⟩
      | none => some ⟨.ident, String.ofList spelling, spelling, rest⟩
    else none
  | [] => none

/-- The numeral at the front of a text, and what follows it: digits with at most one point, and a
    digit on one side of the point. -/
def numeral (cs : List Char) : List Char × List Char :=
  let whole := cs.takeWhile Text.isDigit
  match cs.dropWhile Text.isDigit with
  | '.' :: after =>
    let fraction := after.takeWhile Text.isDigit
    if whole.isEmpty && fraction.isEmpty then ([], cs)
    else (whole ++ '.' :: fraction, after.dropWhile Text.isDigit)
  | rest => (whole, rest)

def number? (cs : List Char) : Option Lexeme :=
  match numeral cs with
  | ([], _) => none
  | (spelling, rest) => some ⟨.number, String.ofList spelling, spelling, rest⟩

/-- An operator or punctuation mark; of two that start alike the longer one. -/
def mark? (cs : List Char) : Option Lexeme :=
  (Mark.all.find? fun m => m.text.toList.isPrefixOf cs).map fun m =>
    ⟨.mark m, m.text, m.text.toList, cs.drop m.text.toList.length⟩

end Lexeme

def lexeme? (cs : List Char) : Option Lexeme :=
  Lexeme.string? cs <|> Lexeme.char? cs <|> Lexeme.word? cs <|> Lexeme.number? cs <|>
    Lexeme.mark? cs

/-! ## Cursors -/

/-- A place in a text: what follows, the number of characters before, and the line. -/
structure Cursor where
  rest : List Char
  offset : Nat
  line : Nat

def Cursor.start (text : String) : Cursor := ⟨text.toList, 0, 1⟩

/-- Skips blanks, tabs, newlines and comments; a comment ends before the next newline. -/
def skipGap (inComment : Bool) (offset line : Nat) : List Char → Cursor
  | [] => ⟨[], offset, line⟩
  | '\n' :: cs => skipGap false (offset + 1) (line + 1) cs
  | c :: cs =>
    if inComment || c == ' ' || c == '\t' then skipGap inComment (offset + 1) line cs
    else if c == '#' then skipGap true (offset + 1) line cs
    else ⟨c :: cs, offset, line⟩

/-- What a cursor finds. -/
inductive Found where
  /-- A token, and the place after it. -/
  | token (t : Token) (after : Cursor)
  /-- No further token. -/
  | finished (after : Cursor)
  /-- A character at which no lexeme starts, and the place before it. -/
  | illegal (c : Char) (here : Cursor)

def Cursor.next (here : Cursor) : Found :=
  let place := skipGap false here.offset here.line here.rest
  match place.rest with
  | [] => .finished place
  | c :: _ =>
    match lexeme? place.rest with
    | none => .illegal c place
    | some l =>
      .token ⟨l.kind, l.value, place.line, place.offset⟩
        ⟨l.rest, place.offset + l.spelling.length, place.line⟩

/-! ## A token uses up some of the text -/

theorem length_dropWhile_le (p : Char → Bool) (cs : List Char) :
    (cs.dropWhile p).length ≤ cs.length :=
  (List.dropWhile_suffix p).length_le

theorem skipGap_rest_le (inComment : Bool) (offset line : Nat) (cs : List Char) :
    (skipGap inComment offset line cs).rest.length ≤ cs.length := by
  fun_induction skipGap inComment offset line cs <;> simp_all <;> omega

namespace Lexeme

theorem string?_rest_lt {cs : List Char} {l : Lexeme} (h : string? cs = some l) :
    l.rest.length < cs.length := by
  unfold string? at h
  split at h
  · rename_i r
    have hle := length_dropWhile_le (fun c => c != '"' && c != '\n') r
    dsimp only at h
    split at h
    · rename_i heq
      cases h
      rw [heq] at hle
      simp only [List.length_cons] at hle ⊢
      omega
    · cases h
  · cases h

theorem char?_rest_lt {cs : List Char} {l : Lexeme} (h : char? cs = some l) :
    l.rest.length < cs.length := by
  unfold char? at h
  split at h
  · split at h
    · cases h
    · cases h; simp only [List.length_cons]; omega
  · cases h

theorem word?_rest_lt {cs : List Char} {l : Lexeme} (h : word? cs = some l) :
    l.rest.length < cs.length := by
  unfold word? at h
  split at h
  · rename_i c r
    have hle := length_dropWhile_le isWordPart r
    split at h
    · dsimp only at h
      split at h <;> (cases h; simp only [List.length_cons]; omega)
    · cases h
  · cases h

theorem numeral_append (cs : List Char) : (numeral cs).1 ++ (numeral cs).2 = cs := by
  have hcs : cs.takeWhile Text.isDigit ++ cs.dropWhile Text.isDigit = cs :=
    List.takeWhile_append_dropWhile
  unfold numeral
  dsimp only
  split
  · rename_i after heq
    split
    · rfl
    · simp only [List.append_assoc, List.cons_append, List.takeWhile_append_dropWhile]
      rw [← heq, hcs]
  · exact hcs

theorem number?_rest_lt {cs : List Char} {l : Lexeme} (h : number? cs = some l) :
    l.rest.length < cs.length := by
  have happ := congrArg List.length (numeral_append cs)
  unfold number? at h
  split at h
  · cases h
  · rename_i spelling rest hne heq
    cases h
    rw [heq] at happ
    have hpos : 0 < spelling.length := List.length_pos_iff.2 hne
    simp only [List.length_append] at happ ⊢
    omega

theorem mark_length_pos (m : Mark) : 0 < m.text.toList.length := by
  cases m <;> decide

theorem mark?_rest_lt {cs : List Char} {l : Lexeme} (h : mark? cs = some l) :
    l.rest.length < cs.length := by
  unfold mark? at h
  obtain ⟨m, hm, rfl⟩ := Option.map_eq_some_iff.1 h
  have hpre : m.text.toList <+: cs := List.isPrefixOf_iff_prefix.1 (by simpa using List.find?_some hm)
  have hle := hpre.length_le
  have hpos := mark_length_pos m
  simp only [List.length_drop]
  omega

end Lexeme

theorem lexeme?_rest_lt {cs : List Char} {l : Lexeme} (h : lexeme? cs = some l) :
    l.rest.length < cs.length := by
  simp only [lexeme?, Option.orElse_eq_orElse, Option.orElse_eq_or, Option.or_eq_some_iff] at h
  rcases h with h | ⟨-, h | ⟨-, h | ⟨-, h | ⟨-, h⟩⟩⟩⟩
  · exact Lexeme.string?_rest_lt h
  · exact Lexeme.char?_rest_lt h
  · exact Lexeme.word?_rest_lt h
  · exact Lexeme.number?_rest_lt h
  · exact Lexeme.mark?_rest_lt h

theorem Cursor.rest_lt {here after : Cursor} {t : Token} (h : here.next = .token t after) :
    after.rest.length < here.rest.length := by
  have hgap := skipGap_rest_le false here.offset here.line here.rest
  simp only [Cursor.next] at h
  split at h
  · cases h
  · split at h
    · cases h
    · rename_i l hl
      cases h
      have := lexeme?_rest_lt hl
      simp only
      omega

/-! ## The tokens of a text -/

/-- The tokens of a text, and how it ends. -/
structure Lexed where
  tokens : List Token
  /-- The character at which no lexeme starts, if one stopped the lexer. -/
  illegal : Option Char
  /-- The line at which the lexer stopped. -/
  line : Nat

/-- The tokens from a place on. -/
def lexFrom (here : Cursor) : Lexed :=
  match _found : here.next with
  | .token t after =>
    let later := lexFrom after
    { later with tokens := t :: later.tokens }
  | .finished after => ⟨[], none, after.line⟩
  | .illegal c place => ⟨[], some c, place.line⟩
termination_by here.rest.length
decreasing_by exact Cursor.rest_lt _found

def lex (text : String) : Lexed := lexFrom (.start text)

end ExprLang
