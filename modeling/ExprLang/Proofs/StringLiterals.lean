/-
  String literals.

  A string ends at the next double quote, whatever stands before that quote.  A backslash does not
  keep a quote in the string, so a text can be quoted exactly if there is no quote in it.

  * `lexFrom_moved`: where a text stands shows in the offsets of its tokens only;
  * `lex_literal`: a text without quotes and newlines is read back from between two quotes, and what
    follows is read as if it stood alone;
  * `literal_read_iff`: with a quote in it, the string ends there, and the rest of it is read as if
    it stood behind the string.
-/
import ExprLang.Proofs.Lexing

namespace ExprLang

/-! ## Further on in a text -/

def Token.moved (d : Nat) (t : Token) : Token := { t with offset := t.offset + d }

/-- The place, `d` characters further on. -/
def Cursor.moved (d : Nat) (here : Cursor) : Cursor := { here with offset := here.offset + d }

def Found.moved (d : Nat) : Found → Found
  | .token t after => .token (t.moved d) (after.moved d)
  | .finished after => .finished (after.moved d)
  | .illegal c here => .illegal c (here.moved d)

/-- What is read, `d` characters further on. -/
def Lexed.moved (d : Nat) (l : Lexed) : Lexed := { l with tokens := l.tokens.map (Token.moved d) }

def Lexed.behind (t : Token) (l : Lexed) : Lexed := { l with tokens := t :: l.tokens }

theorem skipGap_moved (d : Nat) (inComment : Bool) (o n : Nat) (cs : List Char) :
    skipGap inComment (o + d) n cs = (skipGap inComment o n cs).moved d := by
  induction cs generalizing inComment o n with
  | nil => rfl
  | cons c cs ih =>
    have hstep : o + d + 1 = o + 1 + d := by omega
    by_cases hc : c = '\n'
    · subst hc
      rw [skipGap, skipGap, hstep]
      exact ih false (o + 1) (n + 1)
    · rw [skipGap, skipGap, hstep, ih, ih]
      · split_ifs <;> rfl
      · exact hc
      · exact hc

theorem Cursor.next_moved (d : Nat) (here : Cursor) : (here.moved d).next = here.next.moved d := by
  simp only [Cursor.next, Cursor.moved, skipGap_moved]
  generalize skipGap false here.offset here.line here.rest = place
  obtain ⟨rest, o, n⟩ := place
  cases rest with
  | nil => rfl
  | cons c cs =>
    dsimp only
    cases lexeme? (c :: cs) with
    | none => rfl
    | some l => simp [Found.moved, Token.moved, Cursor.moved, Nat.add_right_comm]

/-- **Further on in a text, the same is read.** -/
theorem lexFrom_moved (d : Nat) (here : Cursor) :
    lexFrom (here.moved d) = (lexFrom here).moved d := by
  induction hlen : here.rest.length using Nat.strong_induction_on generalizing here with
  | _ n ih =>
  have hmoved := here.next_moved d
  cases hnext : here.next with
  | token t after =>
    rw [hnext] at hmoved
    have hlt : after.rest.length < n := hlen ▸ Cursor.rest_lt hnext
    rw [lexFrom_token hmoved, lexFrom_token hnext, ih _ hlt after rfl]
    rfl
  | finished after =>
    rw [hnext] at hmoved
    rw [lexFrom_finished hmoved, lexFrom_finished hnext]
    rfl
  | illegal c after =>
    rw [hnext] at hmoved
    rw [lexFrom_illegal hmoved, lexFrom_illegal hnext]
    rfl

/-! ## Literals -/

/-- The text `s` in double quotes, and a text behind it. -/
def literal (s rest : List Char) : String := String.ofList ('"' :: (s ++ '"' :: rest))

def stringToken (s : List Char) : Token := ⟨.string, String.ofList s, 1, 0⟩

/-- What is read if `s` is the string, and `rest` is read as if it stood alone. -/
def literalRead (s rest : List Char) : Lexed :=
  ((lex (String.ofList rest)).moved (s.length + 2)).behind (stringToken s)

theorem lexeme?_literal {s : List Char} (hline : '\n' ∉ s) (hquote : '"' ∉ s) (rest : List Char) :
    lexeme? ('"' :: (s ++ '"' :: rest)) =
      some ⟨.string, String.ofList s, '"' :: s ++ ['"'], rest⟩ := by
  have hbody : (s.all fun c => c != '"' && c != '\n') = true := by
    rw [List.all_eq_true]
    intro c hc
    have hne : c ≠ '"' := fun h => hquote (h ▸ hc)
    have hnl : c ≠ '\n' := fun h => hline (h ▸ hc)
    simp [hne, hnl]
  rw [lexeme?, Lexeme.string?_append hbody]
  rfl

theorem lex_literal {s : List Char} (hline : '\n' ∉ s) (hquote : '"' ∉ s) (rest : List Char) :
    lex (literal s rest) = literalRead s rest := by
  have hnext := next_of_lexeme (lexeme?_literal hline hquote rest) 0 1
  have hrest : (⟨rest, 0 + ('"' :: s ++ ['"']).length, 1⟩ : Cursor) =
      Cursor.moved (s.length + 2) ⟨rest, 0, 1⟩ := by
    simp [Cursor.moved]
  rw [hrest] at hnext
  rw [lex, Cursor.start, literal, String.toList_ofList, lexFrom_token hnext, lexFrom_moved,
    literalRead, lex, Cursor.start, String.toList_ofList]
  rfl

theorem literal_split (u v rest : List Char) :
    literal (u ++ '"' :: v) rest = literal u (v ++ '"' :: rest) := by
  simp [literal]

/-- **A string ends at the first quote.**  A text of one line is read back from between two quotes,
    and what follows it as if it stood alone, exactly if there is no quote in it.  With a quote in
    it, behind a backslash or not, the string is what stands before that quote, and all behind it is
    read as if it stood alone. -/
theorem literal_read_iff {s : List Char} (hline : '\n' ∉ s) (rest : List Char) :
    (lex (literal s rest) = literalRead s rest ↔ '"' ∉ s) ∧
    ∀ u v, s = u ++ '"' :: v → '"' ∉ u →
      lex (literal s rest) = literalRead u (v ++ '"' :: rest) := by
  have hsplit : ∀ u v, s = u ++ '"' :: v → '"' ∉ u →
      lex (literal s rest) = literalRead u (v ++ '"' :: rest) := by
    rintro u v rfl hu
    rw [literal_split]
    exact lex_literal (fun h => hline (by simp [h])) hu _
  refine ⟨⟨?_, fun hquote => lex_literal hline hquote rest⟩, hsplit⟩
  intro hread hquote
  obtain ⟨u, v, rfl, hu⟩ := List.eq_append_cons_of_mem hquote
  rw [hsplit u v rfl hu] at hread
  -- The two readings differ in their first tokens: one string is a part of the other.
  have hvalue := congrArg (fun l => l.tokens.head?.map Token.text) hread
  have hlength := congrArg List.length (String.ofList_injective (Option.some.inj hvalue))
  simp at hlength

/-- In `"a\"b" c` the backslash ends the string, and `b` is a name. -/
theorem literal_read_iff_escaped :
    '\n' ∉ ['a', '\\', '"', 'b'] ∧
    lex (literal ['a', '\\', '"', 'b'] [' ', 'c']) ≠ literalRead ['a', '\\', '"', 'b'] [' ', 'c'] ∧
    lex (literal ['a', '\\', '"', 'b'] [' ', 'c']) =
      literalRead ['a', '\\'] ['b', '"', ' ', 'c'] := by
  have hline : '\n' ∉ ['a', '\\', '"', 'b'] := by decide
  obtain ⟨hiff, hsplit⟩ := literal_read_iff hline [' ', 'c']
  refine ⟨hline, fun h => ?_, hsplit ['a', '\\'] ['b'] rfl (by decide)⟩
  exact absurd (by decide) (hiff.1 h)

end ExprLang
