/-
  Lexers as streams of tokens.

  A program makes a lexer, gives it a text, and then asks for tokens: `next` gives a token as a
  struct, and `has_next` says whether there is one.  `has_next` has to look ahead for that, and the
  lexer keeps the token that it finds.

  * `Lexing.Ahead l ts`: the text of the lexer `l` goes on with the tokens `ts`, and
    `Lexing.advance` takes the first of them (`advance_of_ahead`);
  * `LexerCall.exec_kept`, `exec_next_ahead`, `exec_hasNext_ahead`: what one call answers, and how
    it leaves the lexer;
  * `Calls.fits_of_kept`, `Calls.fits_of_ahead`: what all later calls answer;
  * `lexer_stays_at_kept_token`: the calls of `next` go through the tokens of the text only as long
    as they come before every `has_next`.  The first `has_next` that finds a token fixes the place
    of the lexer: the kept token is never given up, and all later calls answer for it.
-/
import ExprLang.Proofs.Lexing
import ExprLang.Proofs.Runs
import ExprLang.Session

namespace ExprLang

/-! ## The rest of a text -/

theorem Cursor.rest_of_finished {here after : Cursor} (h : here.next = .finished after) :
    after.rest = [] := by
  simp only [Cursor.next] at h
  split at h
  · next hrest =>
    cases h
    exact hrest
  · split at h <;> cases h

/-- The text of the lexer goes on with some tokens, up to its end. -/
def Lexing.Ahead (l : Lexing) (ts : List Token) : Prop :=
  ∃ here, l.place = some here ∧ (lexFrom here).illegal = none ∧ (lexFrom here).tokens = ts

/-- The lexer takes the first token that is ahead; it also stays at the end of the text. -/
theorem Lexing.advance_of_ahead {l : Lexing} {ts : List Token} (h : l.Ahead ts) :
    ∃ l' : Lexing, l.advance = (.ok ts.head?, l') ∧ l'.Ahead ts.tail ∧ l'.held = l.held := by
  obtain ⟨here, hplace, hlegal, rfl⟩ := h
  cases hnext : here.next with
  | token t after =>
    rw [lexFrom_token hnext] at hlegal ⊢
    exact ⟨{ l with place := some after }, by simp [advance, hplace, hnext],
      ⟨after, rfl, hlegal, rfl⟩, rfl⟩
  | finished after =>
    have hend : lexFrom after = ⟨[], none, after.line⟩ := by
      rw [← lexFrom_nil after.offset after.line, ← Cursor.rest_of_finished hnext]
    have htokens : (lexFrom here).tokens = [] := by
      rw [lexFrom]
      split
      · next heq => cases hnext.symm.trans heq
      · rfl
      · rfl
    rw [htokens]
    exact ⟨{ l with place := some after }, by simp [advance, hplace, hnext],
      ⟨after, rfl, by rw [hend], by rw [hend]; rfl⟩, rfl⟩
  | illegal c place =>
    rw [lexFrom] at hlegal
    split at hlegal
    · next heq => cases hnext.symm.trans heq
    · next heq => cases hnext.symm.trans heq
    · cases hlegal

/-! ## Calls -/

/-- What a program can ask a lexer. -/
inductive LexerCall where
  | hasNext
  | next
deriving DecidableEq

namespace LexerCall

/-- Calls the function of a lexer; the call leaves room for `room` nested ones. -/
def run (room id : Nat) : LexerCall → Run Value
  | hasNext => (Builtin.lexerHasNext id).run (room + 1) []
  | next => (Builtin.lexerNext id).run (room + 1) []

/-- An answer of a lexer, and the world with it, fit a text that goes on with some tokens:
    `has_next` says whether there is one, and `next` gives a struct with the kind, the text, the
    line and the offset of the first one, or the empty list if there is none. -/
def Fits (ts : List Token) : LexerCall → Except Fault Value × World → Prop
  | hasNext, (answer, _) => answer = .ok (.bool (!ts.isEmpty))
  | next, (answer, w) =>
    match ts with
    | [] => answer = .ok .nil
    | t :: _ => ∃ k, answer = .ok (.struct k) ∧ w.scopes.vars k =
        [("type", .text t.kind.name), ("value", .text t.text), ("lineno", .int t.line),
         ("lexpos", .int t.offset)]

/-- How many calls of `next` come before every `has_next`. -/
def lead : List LexerCall → Nat
  | next :: calls => lead calls + 1
  | _ => 0

end LexerCall

/-- Calls of the functions of one lexer, from a world on, each with its answer and the world after
    it.  In between, anything can happen that leaves this lexer alone. -/
inductive Calls (id : Nat) : World → List (LexerCall × Except Fault Value × World) → Prop
  | nil {w : World} : Calls id w []
  | cons {w v : World} {c : LexerCall} {asked : List (LexerCall × Except Fault Value × World)}
      (room : Nat) (same : v.lexers[id]? = w.lexers[id]?)
      (later : Calls id ((c.run room id).exec v).2 asked) :
      Calls id w ((c, (c.run room id).exec v) :: asked)

/-! ## What one call does -/

theorem Run.exec_withLexer {α : Type} {id : Nat} {w : World} {l : Lexing}
    (h : w.lexers[id]? = some l) (f : Lexing → Except Fault α × Lexing) :
    ExceptT.exec (withLexer id f) w = ((f l).1, { w with lexers := w.lexers.set! id (f l).2 }) := by
  simp [withLexer, h]

theorem World.lexer_set {w : World} {id : Nat} {l : Lexing} (h : w.lexers[id]? = some l)
    (l' : Lexing) : (w.lexers.set! id l')[id]? = some l' := by
  obtain ⟨hid, -⟩ := Array.getElem?_eq_some_iff.1 h
  simp [hid]

theorem Run.exec_newStruct (members : Bindings Value) (w : World) : ∃ u k,
    ExceptT.exec (Run.newStruct members) w = (.ok (.struct k), u) ∧ u.scopes.vars k = members ∧
      u.lexers = w.lexers := by
  refine ⟨_, w.scopes.scopes.size, rfl, ?_, rfl⟩
  simp [Forest.vars]

namespace LexerCall

variable {room id : Nat} {w : World} {l : Lexing} {t : Token} {ts : List Token}

theorem exec_kept (hl : w.lexers[id]? = some l) (ht : l.held = some t) (ts : List Token) :
    ∀ c : LexerCall, c.Fits (t :: ts) ((c.run room id).exec w) ∧
      ((c.run room id).exec w).2.lexers[id]? = some l
  | hasNext => by
    have hexec : (hasNext.run room id).exec w =
        (.ok (.bool true), { w with lexers := w.lexers.set! id l }) := by
      show (Run.lexerHasNext id).exec w = _
      simp only [Run.lexerHasNext, ExceptT.exec_bind, Run.exec_withLexer hl, ht, ExceptT.exec_pure,
        Option.isSome_some]
    rw [hexec]
    exact ⟨rfl, World.lexer_set hl l⟩
  | next => by
    obtain ⟨u, k, hnew, hvars, hlexers⟩ := Run.exec_newStruct [("type", .text t.kind.name),
      ("value", .text t.text), ("lineno", .int t.line), ("lexpos", .int t.offset)]
      { w with lexers := w.lexers.set! id l }
    have hexec : (next.run room id).exec w = (.ok (.struct k), u) := by
      show (Run.lexerNext id).exec w = _
      simp only [Run.lexerNext, ExceptT.exec_bind, Run.exec_withLexer hl, ht, hnew]
    rw [hexec]
    exact ⟨⟨k, rfl, hvars⟩, by rw [hlexers]; exact World.lexer_set hl l⟩

/-- Without a kept token, `next` takes the first token that is ahead. -/
theorem exec_next_ahead (hl : w.lexers[id]? = some l) (hfree : l.held = none)
    (hts : l.Ahead ts) : next.Fits ts ((next.run room id).exec w) ∧
      ∃ l' : Lexing, ((next.run room id).exec w).2.lexers[id]? = some l' ∧ l'.held = none ∧
        l'.Ahead ts.tail := by
  obtain ⟨l', hadvance, hahead, hheld⟩ := Lexing.advance_of_ahead hts
  have hrun : next.run room id = Run.lexerNext id := rfl
  rw [hrun, Run.lexerNext, ExceptT.exec_bind, Run.exec_withLexer hl]
  simp only [hfree, hadvance]
  cases ts with
  | nil => exact ⟨rfl, l', World.lexer_set hl l', hheld.trans hfree, hahead⟩
  | cons t ts =>
    obtain ⟨u, k, hnew, hvars, hlexers⟩ := Run.exec_newStruct [("type", .text t.kind.name),
      ("value", .text t.text), ("lineno", .int t.line), ("lexpos", .int t.offset)]
      { w with lexers := w.lexers.set! id l' }
    simp only [List.head?_cons, hnew]
    exact ⟨⟨k, rfl, hvars⟩, l', by rw [hlexers]; exact World.lexer_set hl l',
      hheld.trans hfree, hahead⟩

/-- Without a kept token, `has_next` keeps the first token that is ahead. -/
theorem exec_hasNext_ahead (hl : w.lexers[id]? = some l) (hfree : l.held = none)
    (hts : l.Ahead ts) : hasNext.Fits ts ((hasNext.run room id).exec w) ∧
      ∃ l' : Lexing, ((hasNext.run room id).exec w).2.lexers[id]? = some l' ∧ l'.held = ts.head? ∧
        l'.Ahead ts.tail := by
  obtain ⟨l', hadvance, hahead, -⟩ := Lexing.advance_of_ahead hts
  have hexec : (hasNext.run room id).exec w = (.ok (.bool ts.head?.isSome),
      { w with lexers := w.lexers.set! id { l' with held := ts.head? } }) := by
    show (Run.lexerHasNext id).exec w = _
    simp only [Run.lexerHasNext, ExceptT.exec_bind, Run.exec_withLexer hl, hfree, hadvance,
      ExceptT.exec_pure]
  rw [hexec]
  refine ⟨?_, _, World.lexer_set hl _, rfl, hahead⟩
  cases ts <;> rfl

end LexerCall

/-! ## Any number of calls -/

namespace Calls

variable {id : Nat} {w : World} {l : Lexing} {t : Token} {ts : List Token}
  {asked : List (LexerCall × Except Fault Value × World)}

/-- **Once a token is kept, every answer is about it.** -/
theorem fits_of_kept (h : Calls id w asked) (hl : w.lexers[id]? = some l)
    (ht : l.held = some t) (ts : List Token) : ∀ c answer, (c, answer) ∈ asked →
      c.Fits (t :: ts) answer := by
  induction h with
  | nil => simp
  | @cons w v c asked room same later ih =>
    obtain ⟨hfits, hstays⟩ := LexerCall.exec_kept (same.trans hl) ht ts c
    intro c' answer hmem
    rcases List.mem_cons.1 hmem with heq | hmem
    · cases heq
      exact hfits
    · exact ih hstays c' answer hmem

/-- As long as no token is kept, the calls of `next` go through the tokens ahead. -/
theorem fits_of_ahead (h : Calls id w asked) (hl : w.lexers[id]? = some l)
    (hfree : l.held = none) (hts : l.Ahead ts) : ∀ (i : Nat) (c : LexerCall) answer,
      asked[i]? = some (c, answer) →
      c.Fits (ts.drop (LexerCall.lead ((asked.take i).map Prod.fst))) answer := by
  induction h generalizing l ts with
  | nil => simp
  | @cons w v c asked room same later ih =>
    have hl := same.trans hl
    intro i c' answer hi
    cases c with
    | next =>
      obtain ⟨hfits, l', hl', hfree', hahead⟩ := LexerCall.exec_next_ahead hl hfree hts
      cases i with
      | zero =>
        cases hi
        exact hfits
      | succ i =>
        have := ih hl' hfree' hahead i c' answer hi
        rwa [List.drop_tail] at this
    | hasNext =>
      obtain ⟨hfits, l', hl', hheld, hahead⟩ := LexerCall.exec_hasNext_ahead hl hfree hts
      cases i with
      | zero =>
        cases hi
        exact hfits
      | succ i =>
        cases ts with
        | nil =>
          -- At the end of the text nothing is kept, and there is nothing to go through.
          have := ih hl' hheld hahead i c' answer hi
          rwa [List.tail_nil, List.drop_nil] at this
        | cons t ts => exact fits_of_kept later hl' hheld ts c' answer (List.mem_of_getElem? hi)

end Calls

/-- **A lexer stays at the token that `has_next` keeps.**  A new lexer is a struct of three
    functions.  After it was given a text without illegal characters, every call of `next` or
    `has_next`, in any order and with anything else in between, answers for the place in the text
    that comes after as many tokens as there are calls of `next` before the first `has_next`: later
    calls of `next` do not count. -/
theorem lexer_stays_at_kept_token (text : String) (hlegal : (lex text).illegal = none)
    (w : World) : ∃ k id made, Run.newLexer.exec w = (.ok (.struct k), made) ∧
      made.scopes.vars k = [("input", .builtin (.lexerInput id)),
        ("next", .builtin (.lexerNext id)), ("has_next", .builtin (.lexerHasNext id))] ∧
      ∀ v, v.lexers[id]? = made.lexers[id]? →
        ∃ given, (∀ room, ((Builtin.lexerInput id).run (room + 1) [.text text]).exec v =
            (.ok .null, given)) ∧
          ∀ asked, Calls id given asked → ∀ (i : Nat) (c : LexerCall) answer,
            asked[i]? = some (c, answer) →
              c.Fits ((lex text).tokens.drop (LexerCall.lead ((asked.take i).map Prod.fst)))
                answer := by
  obtain ⟨made, k, hnew, hvars, hlexers⟩ := Run.exec_newStruct
    [("input", .builtin (.lexerInput w.lexers.size)),
      ("next", .builtin (.lexerNext w.lexers.size)),
      ("has_next", .builtin (.lexerHasNext w.lexers.size))]
    { w with lexers := w.lexers.push .start }
  refine ⟨k, w.lexers.size, made, hnew, hvars, fun v hv => ?_⟩
  have hstart : v.lexers[w.lexers.size]? = some .start := by
    rw [hv, hlexers]
    simp
  refine ⟨{ v with lexers := v.lexers.set! w.lexers.size (Lexing.start.withText text) }, ?_, ?_⟩
  · intro room
    show (Run.lexerInput w.lexers.size (.text text)).exec v = _
    simp only [Run.lexerInput, ExceptT.exec_bind, Run.exec_withLexer hstart, ExceptT.exec_pure]
  · intro asked hasked
    have hahead : (Lexing.start.withText text).Ahead (lex text).tokens :=
      ⟨Cursor.start text, rfl, hlegal, rfl⟩
    exact hasked.fits_of_ahead (World.lexer_set hstart _) rfl hahead

/-- Of `a b`, the second call of `next` after `has_next` gives the first token again. -/
theorem second_next_repeats_first_token :
    lex "a b" = ⟨[⟨.ident, "a", 1, 0⟩, ⟨.ident, "b", 1, 2⟩], none, 1⟩ ∧
      ∃ k id made given, Run.newLexer.exec (Session.start [] []) = (.ok (.struct k), made) ∧
        ((Builtin.lexerInput id).run 1 [.text "a b"]).exec made = (.ok .null, given) ∧
        let asked := (LexerCall.hasNext.run 0 id).exec given
        let first := (LexerCall.next.run 0 id).exec asked.2
        let second := (LexerCall.next.run 0 id).exec first.2
        LexerCall.next.Fits [⟨.ident, "a", 1, 0⟩, ⟨.ident, "b", 1, 2⟩] second := by
  have hlex : lex "a b" = ⟨[⟨.ident, "a", 1, 0⟩, ⟨.ident, "b", 1, 2⟩], none, 1⟩ := by cbv
  obtain ⟨k, id, made, hnew, -, hmade⟩ :=
    lexer_stays_at_kept_token "a b" (by rw [hlex]) (Session.start [] [])
  obtain ⟨given, hinput, hasked⟩ := hmade made rfl
  have hthird := hasked _ (.cons (c := .hasNext) 0 rfl
    (.cons (c := .next) 0 rfl (.cons (c := .next) 0 rfl .nil))) 2 _ _ rfl
  rw [hlex] at hthird
  exact ⟨hlex, k, id, made, given, hnew, hinput 0, hthird⟩

end ExprLang
