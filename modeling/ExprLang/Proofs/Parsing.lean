/-
  Texts are read by the grammar.

  The machine makes every move of the automaton (`Move.step`), so it reads whatever can be derived
  (`derive_of_derives`); and what it reads can be derived, as its trees are well formed.

  `parse_iff_derives`: a text is read exactly if its tokens can be derived from an expression, and
  every other text has a syntax fault.
-/
import ExprLang.Source
import ExprLang.Proofs.ParseMoves
import ExprLang.Proofs.ParseRuns

namespace ExprLang

namespace Grammar

open ExprLang.Grammar.Tree

/-! ## Moves of the machine -/

def Machine.view (m : Machine) : List Nat × List Kind :=
  (m.stack.map Frame.state, m.input.map (·.kind))

theorem topState_map (fs : List Frame) : topState (fs.map Frame.state) = Machine.top fs := by
  cases fs <;> rfl

theorem Machine.step_shift {m : Machine} {t : Token} {rest : List Token} {s : Nat}
    (hi : m.input = t :: rest) (hs : (row (top m.stack)).shift? t.kind = some s) :
    m.step = .next { m with
      stack := ⟨s, .leaf t⟩ :: m.stack, input := rest, trial := m.trial - 1 } := by
  rw [step]
  simp only [hi, hs]

theorem Machine.step_reduce {m : Machine} {r : Rule} (hstop : m.stop = none) (hr : r ≠ .start)
    (h : (row (top m.stack)).reduce? (m.input.map (·.kind)).head? = some r) :
    m.step = m.reduce r := by
  rw [step]
  cases hi : m.input with
  | nil =>
    rw [hi] at h
    simp only [hstop]
    split
    · next h' => exact absurd (Option.some.inj (h.symm.trans h')) hr
    · next h' => rw [Option.some.inj (h.symm.trans h')]
    · next h' => cases h.symm.trans h'
  | cons t rest =>
    rw [hi] at h
    have hshift := shift?_eq_none h
    simp only [hshift]
    split
    · next h' => rw [Option.some.inj (h.symm.trans h')]
    · next h' => cases h.symm.trans h'

theorem Move.step {text : Lexed} {m : Machine} {c : List Nat × List Kind}
    (hp : Plain (text.tokens.map (·.kind))) (hi : text.illegal = none) (h : Sound text m)
    (hm : Move m.view c) :
    ∃ m', m.step = .next m' ∧ Sound text m' ∧ m'.left < m.left ∧ m'.view = c := by
  generalize hv : m.view = v at hm
  cases hm with
  | @shift σ k w s hs =>
    obtain ⟨rfl, hw⟩ := Prod.mk.inj hv
    obtain ⟨t, rest, hin, rfl, rfl⟩ := List.map_eq_cons_iff.1 hw
    rw [topState_map] at hs
    obtain ⟨hsound, hleft⟩ := h.shift hin hs
    exact ⟨_, Machine.step_shift hin hs, hsound, hleft, rfl⟩
  | @reduce σ w r s hr hs hg =>
    obtain ⟨rfl, rfl⟩ := Prod.mk.inj hv
    rw [topState_map] at hr
    obtain ⟨f, hf, hstep, hsound, hleft⟩ := h.reduce hp hr hs
    refine ⟨_, (Machine.step_reduce (h.stop.trans hi) hs hr).trans hstep, hsound, hleft, ?_⟩
    rw [← List.map_drop, topState_map] at hg
    obtain rfl : s = f.state := Option.some.inj (hg.symm.trans hf)
    simp [Machine.view]

theorem Moves.run {text : Lexed} {c : List Nat × List Kind}
    (hp : Plain (text.tokens.map (·.kind))) (hi : text.illegal = none) {m : Machine} {fuel : Nat}
    (h : Sound text m) (hf : m.left < fuel) (hm : Moves m.view c) :
    ∃ m' fuel', m.run fuel = m'.run fuel' ∧ Sound text m' ∧ m'.left < fuel' ∧ m'.view = c := by
  generalize hv : m.view = v at hm
  induction hm using Relation.ReflTransGen.head_induction_on generalizing m fuel with
  | refl => exact ⟨m, fuel, rfl, h, hf, hv⟩
  | head hmove _ ih =>
    obtain ⟨m₁, hstep, h₁, hleft, hv₁⟩ := Move.step hp hi h (hv ▸ hmove)
    obtain ⟨fuel, rfl⟩ := Nat.exists_eq_succ_of_ne_zero (Nat.ne_zero_of_lt hf)
    obtain ⟨m', fuel', hrun, hm'⟩ := ih h₁ (Nat.lt_of_lt_of_le hleft (Nat.le_of_lt_succ hf)) hv₁
    exact ⟨m', fuel', by rw [Machine.run, hstep]; exact hrun, hm'⟩

theorem moves_of_derives {text : Lexed}
    (h : Derives [.phrase .expression] (text.tokens.map (·.kind))) :
    Moves (Machine.start text).view ([1], []) := by
  obtain ⟨hstate, hsolid, -⟩ := TableFacts.whole tableFacts
  obtain ⟨ts, hs, hok, hk⟩ := ok_of_derives h
  obtain ⟨t, rfl, ht⟩ := List.map_eq_singleton_iff.1 hs
  have hread : Moves ([], t.kinds ++ []) ([1], []) := by
    refine (reads_of_ok (hok t (by simp))).1 (by rw [ht]; exact hstate) (fun _ => hsolid) ?_
    intro a ha
    cases ht.symm.trans ha
    exact List.mem_cons_self ..
  rw [kindsOf_cons, kindsOf_nil] at hk
  rwa [hk] at hread

theorem derive_of_derives {text : Lexed} (hp : Plain (text.tokens.map (·.kind)))
    (hi : text.illegal = none)
    (h : Derives [.phrase .expression] (text.tokens.map (·.kind))) :
    ∃ t, derive text = .tree t := by
  obtain ⟨-, -, hstart⟩ := TableFacts.whole tableFacts
  obtain ⟨m, fuel, hrun, hm, hleft, hv⟩ :=
    (moves_of_derives h).run hp hi (.start text) (left_start text)
  obtain ⟨hstack, hinput⟩ := Prod.mk.inj hv
  obtain ⟨f, hf, htop⟩ := List.map_eq_singleton_iff.1 hstack
  have hr : (row (Machine.top [f])).reduce? none = some .start := by
    rw [Machine.top, htop]
    exact hstart
  obtain ⟨fuel, rfl⟩ := Nat.exists_eq_succ_of_ne_zero (Nat.ne_zero_of_lt hleft)
  refine ⟨f.tree, ?_⟩
  rw [derive, hrun, Machine.run, Machine.step]
  simp only [List.map_eq_nil_iff.1 hinput, hm.stop, hi, hf, hr]

end Grammar

/-! ## Texts -/

open Grammar

theorem parse_cases {text : String} (hp : Plain ((lex text).tokens.map (·.kind))) :
    (∃ e, parse text = .ok (some e)) ∧ (lex text).illegal = none ∧
        Derives [.phrase .expression] ((lex text).tokens.map (·.kind)) ∨
      (∃ f, parse text = .error (.syntax_ f)) ∧ ¬ ((lex text).illegal = none ∧
        Derives [.phrase .expression] ((lex text).tokens.map (·.kind))) := by
  have hfits : (derive (lex text)).Fits (lex text) := Sound.run hp (.start _) (left_start _)
  have hcomplete : (lex text).illegal = none ∧
      Derives [.phrase .expression] ((lex text).tokens.map (·.kind)) →
      ∃ t, derive (lex text) = .tree t := fun h => derive_of_derives hp h.1 h.2
  rw [parse]
  cases hd : derive (lex text) with
  | tree t =>
    rw [hd] at hfits
    obtain ⟨hok, hsym, htokens, hillegal⟩ := hfits
    have hkinds : t.kinds = (lex text).tokens.map (·.kind) := congrArg _ htokens
    have hmeans := means_of_ok hok (by rw [hkinds]; exact hp.noFor)
    rw [Tree.Means, hsym] at hmeans
    obtain ⟨e, he⟩ := Option.isSome_iff_exists.1 hmeans
    have hder := derives_of_ok hok
    rw [hsym, hkinds] at hder
    exact .inl ⟨⟨e, congrArg Except.ok he⟩, hillegal, hder⟩
  | nothing => exact absurd hfits (by rw [hd]; exact id)
  | forLoop => exact absurd hfits (by rw [hd]; exact id)
  | unexpected t =>
    refine .inr ⟨⟨.unexpected t, rfl⟩, fun h => ?_⟩
    obtain ⟨t', ht'⟩ := hcomplete h
    cases hd.symm.trans ht'
  | illegal c =>
    refine .inr ⟨⟨.illegal c, rfl⟩, fun h => ?_⟩
    obtain ⟨t', ht'⟩ := hcomplete h
    cases hd.symm.trans ht'

/-- **The parser accepts exactly its grammar.**  A text without `for` and without an assignment to
    a member behind two dots is read as an expression if it has no illegal character and its tokens
    can be derived from an expression; in every other case it has a syntax fault. -/
theorem parse_iff_derives (text : String)
    (hfor : .word .for_ ∉ (lex text).tokens.map (·.kind))
    (hdots : ¬ [.mark .dot, .mark .dot, .ident, .mark .assign] <:+:
      (lex text).tokens.map (·.kind)) :
    ((∃ e, parse text = .ok (some e)) ↔ (lex text).illegal = none ∧
      Derives [.phrase .expression] ((lex text).tokens.map (·.kind))) ∧
    ((∃ f, parse text = .error (.syntax_ f)) ↔ ¬ ((lex text).illegal = none ∧
      Derives [.phrase .expression] ((lex text).tokens.map (·.kind)))) := by
  rcases parse_cases ⟨hfor, hdots⟩ with ⟨⟨e, he⟩, hread⟩ | ⟨⟨f, hf⟩, hnot⟩
  · refine ⟨⟨fun _ => hread, fun _ => ⟨e, he⟩⟩, ⟨?_, fun hnot => absurd hread hnot⟩⟩
    rintro ⟨f, hf⟩
    cases he.symm.trans hf
  · refine ⟨⟨?_, fun hread => absurd hread hnot⟩, ⟨fun _ => hnot, fun _ => ⟨f, hf⟩⟩⟩
    rintro ⟨e, he⟩
    cases hf.symm.trans he

/-- What the lexer gives, field by field: each field of a given text can be decided. -/
theorem lex_eq {text : String} {ts : List Token} {illegal : Option Char} {line : Nat}
    (h : (lex text).tokens = ts ∧ (lex text).illegal = illegal ∧ (lex text).line = line) :
    lex text = ⟨ts, illegal, line⟩ := by
  obtain ⟨rfl, rfl, rfl⟩ := h
  rfl

theorem lex_sum : lex "1 + x = -y" = ⟨[⟨.number, "1", 1, 0⟩, ⟨.mark .plus, "+", 1, 2⟩,
    ⟨.ident, "x", 1, 4⟩, ⟨.mark .assign, "=", 1, 6⟩, ⟨.mark .minus, "-", 1, 8⟩,
    ⟨.ident, "y", 1, 9⟩], none, 1⟩ := lex_eq (by decide +kernel)

theorem derives_sum : Derives [.phrase .expression]
    [.number, .mark .plus, .ident, .mark .assign, .mark .minus, .ident] := by
  have hone : Derives [.phrase .expression] [.number] := .rule (r := .number) (.token .nil)
  have hy : Derives [.phrase .expression] [.ident] := .rule (r := .var) (.token .nil)
  have hminus : Derives [.phrase .expression] [.mark .minus, .ident] :=
    .rule (r := .unary .minus) (.token hy)
  have hassign : Derives [.phrase .assignment] [.ident, .mark .assign, .mark .minus, .ident] :=
    .rule (r := .assignment) (.token (.token hminus))
  have hx : Derives [.phrase .expression] [.ident, .mark .assign, .mark .minus, .ident] :=
    .rule (r := .ofAssignment) hassign
  exact .rule (r := .binary .plus) (hone.append (.token hx))

/-- An assignment may stand behind an operator. -/
theorem parse_iff_derives_sum :
    .word .for_ ∉ (lex "1 + x = -y").tokens.map (·.kind) ∧
    ¬ [.mark .dot, .mark .dot, .ident, .mark .assign] <:+:
      (lex "1 + x = -y").tokens.map (·.kind) ∧
    ∃ e, parse "1 + x = -y" = .ok (some e) := by
  have hfor : .word .for_ ∉ (lex "1 + x = -y").tokens.map (·.kind) := by
    rw [lex_sum]
    decide
  have hdots : ¬ [.mark .dot, .mark .dot, .ident, .mark .assign] <:+:
      (lex "1 + x = -y").tokens.map (·.kind) := by
    rw [lex_sum]
    decide
  refine ⟨hfor, hdots, (parse_iff_derives _ hfor hdots).1.2 ?_⟩
  rw [lex_sum]
  exact ⟨rfl, derives_sum⟩

end ExprLang
