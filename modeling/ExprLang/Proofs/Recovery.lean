/-
  Assignments to members behind two or more dots.

  The rule for such an assignment is refused when it is about to be reduced, and the machine drops
  what it has read.

  * `Tree.Accepted`: no rule was refused in a tree.  Its tokens then hold no assignment to a member
    behind two dots (`not_infix_of_accepted`), so that a text with one cannot be read as a whole;
  * `Moves.steps_or_refused`: the machine makes the moves of the automaton up to the first rule that
    is refused;
  * `outer_assignment_drops`: a text with such an assignment is read as if it began behind the token
    after one of them.  That the assignment is not allowed is only reported if something else is
    wrong later on.
-/
import ExprLang.Proofs.Parsing
import ExprLang.Proofs.ParseSteps

namespace ExprLang

namespace Grammar

open ExprLang.Grammar.Tree

variable {ts : List Tree} {t : Tree} {r : Rule} {text : Lexed} {m : Machine}

/-! ## Trees without refused rules -/

/-- No rule in the tree is refused. -/
inductive Tree.Accepted : Tree → Prop where
  | leaf (t : Token) : Accepted (leaf t)
  | node {r : Rule} {ls : Lines} {ts : List Tree} (hr : refusal? r ts = none)
      (h : ∀ t ∈ ts, Accepted t) : Accepted (node r ls ts)

/-- How much of two dots, a name and `=` has just been read. -/
inductive Seen where
  | nothing | dot | dots | name | all
deriving DecidableEq

namespace Seen

def next : Seen → Kind → Seen
  | all, _ => all
  | name, .mark .assign => all
  | dots, .ident => name
  | dots, .mark .dot | dot, .mark .dot => dots
  | _, .mark .dot => dot
  | _, _ => nothing

def after (q : Seen) (ks : List Kind) : Seen := ks.foldl next q

theorem after_append (q : Seen) (ks ls : List Kind) :
    q.after (ks ++ ls) = (q.after ks).after ls := List.foldl_append

theorem after_all (ks : List Kind) : all.after ks = all := by
  induction ks with
  | nil => rfl
  | cons k ks ih => exact ih

theorem after_of_infix {ks : List Kind}
    (h : [.mark .dot, .mark .dot, .ident, .mark .assign] <:+: ks) (q : Seen) :
    q.after ks = all := by
  obtain ⟨before, behind, rfl⟩ := h
  have hfound : ∀ q : Seen, q.after [.mark .dot, .mark .dot, .ident, .mark .assign] = all := by
    intro q
    cases q <;> rfl
  rw [after_append, after_append, hfound, after_all]

/-- What may have been seen after a symbol; `none` if the symbol does not stand there. -/
def pass (qs : List Seen) : Symbol → Option (List Seen)
  | .token k => some (qs.map (·.next k))
  | .phrase .dots => if qs.all [nothing, name].contains then some [dot, dots] else none
  | .phrase _ => if qs.all [nothing].contains then some [nothing, name] else none

theorem rules_pass : rules.all (fun r => r == .start || r.lhs == .dots ||
    (if r == .memberAssignment then r.rhs.tail.foldlM pass [dot]
      else r.rhs.foldlM pass [nothing]).any (·.all [nothing, name].contains)) = true := by
  decide

end Seen

/-- What is seen after a tree is what may be seen after its symbol. -/
def Tree.Passes (t : Tree) : Prop :=
  ∀ qs qs' q, Seen.pass qs t.symbol = some qs' → q ∈ qs → q.after t.kinds ∈ qs'

theorem passes_all (h : ∀ t ∈ ts, t.Passes) {qs qs' : List Seen} {q : Seen}
    (hp : (ts.map symbol).foldlM Seen.pass qs = some qs') (hq : q ∈ qs) :
    q.after (kindsOf ts) ∈ qs' := by
  induction ts generalizing qs q with
  | nil =>
    cases hp
    exact hq
  | cons t ts ih =>
    rw [List.map_cons, List.foldlM_cons] at hp
    obtain ⟨qs₁, ht, hp⟩ := Option.bind_eq_some_iff.1 hp
    rw [kindsOf_cons, Seen.after_append]
    exact ih (fun u hu => h u (.tail t hu)) hp (h t (.head ts) qs qs₁ q ht hq)

theorem after_dots {q : Seen} (hq : q ∈ [Seen.nothing, .name]) (n : Nat) :
    q.after (List.replicate (n + 1) (.mark .dot)) ∈ [Seen.dot, .dots] := by
  have hmany : ∀ n, Seen.dots.after (List.replicate n (.mark .dot)) = .dots := by
    intro n
    induction n with
    | zero => rfl
    | succ n ih => exact ih
  have hfirst : q.next (.mark .dot) = .dot := by
    simp only [List.mem_cons, List.not_mem_nil, or_false] at hq
    rcases hq with rfl | rfl <;> rfl
  rw [List.replicate_succ]
  show (q.next (.mark .dot)).after _ ∈ _
  rw [hfirst]
  cases n with
  | zero => simp [Seen.after]
  | succ n =>
    rw [List.replicate_succ]
    show Seen.dots.after _ ∈ _
    simp [hmany]

theorem kinds_of_accepted_assignment (hs : ts.map symbol = Rule.memberAssignment.rhs)
    (hok : ∀ t ∈ ts, t.Ok) (hr : refusal? .memberAssignment ts = none) :
    ∃ t us, ts = t :: us ∧ us.map symbol = Rule.memberAssignment.rhs.tail ∧
      t.kinds = [.mark .dot] := by
  obtain ⟨t, us, rfl, ht, hus⟩ := List.map_eq_cons_iff.1 hs
  refine ⟨t, us, rfl, hus, ?_⟩
  cases hok t (.head us) with
  | leaf => cases ht
  | @node r ls vs _ hvs _ =>
    cases r <;> simp only [symbol_node, Rule.lhs, Symbol.phrase.injEq, reduceCtorEq] at ht
    case dotsMore => cases hr
    case dotsOne =>
      obtain ⟨a, rfl, ha⟩ := List.map_eq_singleton_iff.1 hvs
      obtain ⟨tok, rfl, hk⟩ := eq_leaf ha
      simp [hk]

theorem passes_of_accepted (hok : t.Ok) (ha : t.Accepted) : t.Passes := by
  induction hok with
  | leaf t =>
    intro qs qs' q hp hq
    cases hp
    exact List.mem_map_of_mem hq
  | @node r ls ts hr hs hok ih =>
    cases ha with
    | node hrefuse haccepted =>
    have hparts : ∀ t ∈ ts, t.Passes := fun t ht => ih t ht (haccepted t ht)
    intro qs qs' q hp hq
    by_cases hdots : r.lhs = .dots
    · rw [symbol_node, hdots, Seen.pass] at hp
      split_ifs at hp with hall
      cases hp
      have hnode : (node r ls ts).Ok := .node hr hs hok
      obtain ⟨n, hn⟩ := kinds_dots hnode (by rw [symbol_node, hdots])
      rw [hn]
      exact after_dots (by simpa using List.all_eq_true.1 hall q hq) n
    · have hpass : Seen.pass qs (.phrase r.lhs) =
          if qs.all [Seen.nothing].contains then some [.nothing, .name] else none := by
        cases hl : r.lhs <;> first | exact absurd hl hdots | rfl
      rw [symbol_node, hpass] at hp
      split_ifs at hp with hall
      cases hp
      obtain rfl : q = .nothing := by simpa using List.all_eq_true.1 hall q hq
      have hrule := List.all_eq_true.1 Seen.rules_pass r (mem_rules r)
      simp only [hr, hdots, beq_iff_eq, Bool.or_eq_true, false_or, Option.any_eq_true,
        List.all_eq_true] at hrule
      obtain ⟨qs', hq', hall'⟩ := hrule
      rw [kinds_node]
      suffices h : Seen.nothing.after (kindsOf ts) ∈ qs' by simpa using hall' _ h
      by_cases hm : r = .memberAssignment
      · subst hm
        obtain ⟨t, us, rfl, hus, hk⟩ := kinds_of_accepted_assignment hs hok hrefuse
        rw [if_pos rfl, ← hus] at hq'
        rw [kindsOf_cons, hk, Seen.after_append]
        exact passes_all (fun u hu => hparts u (.tail t hu)) hq' (List.mem_singleton.2 rfl)
      · rw [if_neg hm, ← hs] at hq'
        exact passes_all hparts hq' (List.mem_singleton.2 rfl)

theorem not_infix_of_accepted (hok : t.Ok) (ha : t.Accepted) (ht : t.symbol = .phrase .expression) :
    ¬ [.mark .dot, .mark .dot, .ident, .mark .assign] <:+: t.kinds := by
  intro hinfix
  have hp := passes_of_accepted hok ha [.nothing] [.nothing, .name] .nothing (by rw [ht]; rfl)
    (.head [])
  rw [Seen.after_of_infix hinfix] at hp
  simp at hp

/-! ## Up to the first refused rule -/

/-- The machine stands before a rule that is refused. -/
def Machine.Refuses (m : Machine) (x : Refusal) : Prop :=
  ∃ r, (row (top m.stack)).reduce? m.look = some r ∧
    refusal? r (trees (m.stack.take r.rhs.length)) = some x

theorem Linked.accepted_reduced {fs : List Frame} {f : Frame} (ha : ∀ t ∈ trees fs, t.Accepted)
    (hr : refusal? r (trees (fs.take r.rhs.length)) = none)
    (hf : f.tree = .apply r (trees (fs.take r.rhs.length))) :
    ∀ t ∈ trees (f :: fs.drop r.rhs.length), t.Accepted := by
  have hsplit := trees_take_drop r.rhs.length fs
  intro t ht
  rw [trees_cons, List.mem_append, List.mem_singleton] at ht
  rcases ht with ht | rfl
  · exact ha t (by rw [← hsplit]; exact List.mem_append_left _ ht)
  · rw [hf]
    exact .node hr fun u hu => ha u (by rw [← hsplit]; exact List.mem_append_right _ hu)

theorem Move.step_or_refused {c : List Nat × List Kind} (hi : text.illegal = none)
    (h : Sound text m) (ha : ∀ t ∈ trees m.stack, t.Accepted) (hm : Move m.view c) :
    (∃ m', m.step = .next m' ∧ Sound text m' ∧ (∀ t ∈ trees m'.stack, t.Accepted) ∧ m'.view = c) ∨
      ∃ x, m.Refuses x := by
  generalize hv : m.view = v at hm
  cases hm with
  | @shift σ k w s hs =>
    obtain ⟨rfl, hw⟩ := Prod.mk.inj hv
    obtain ⟨t, rest, hin, rfl, rfl⟩ := List.map_eq_cons_iff.1 hw
    rw [topState_map] at hs
    refine .inl ⟨_, Machine.step_shift hin hs, (h.shift hin hs).1, fun u hu => ?_, rfl⟩
    rw [trees_cons, List.mem_append, List.mem_singleton] at hu
    rcases hu with hu | rfl
    · exact ha u hu
    · exact .leaf t
  | @reduce σ w r s hr hs hg =>
    obtain ⟨rfl, rfl⟩ := Prod.mk.inj hv
    rw [topState_map] at hr
    rw [← List.map_drop, topState_map] at hg
    cases hrefuse : refusal? r (trees (m.stack.take r.rhs.length)) with
    | some x => exact .inr ⟨x, r, hr, hrefuse⟩
    | none =>
      obtain ⟨f, hf, hgoto, hlinked, htokens, -⟩ := h.linked.reduced hr hs
      obtain rfl : s = f.state := Option.some.inj (hg.symm.trans hgoto)
      refine .inl ⟨_, (Machine.step_reduce (h.stop.trans hi) hs hr).trans
        (Machine.reduce_eq hf hgoto hrefuse), ⟨hlinked, ?_, h.stop, h.trial⟩,
        Linked.accepted_reduced ha hrefuse hf, by simp [Machine.view]⟩
      rw [← h.tokens, ← htokens]

theorem Moves.steps_or_refused {c : List Nat × List Kind} (hi : text.illegal = none)
    (h : Sound text m) (ha : ∀ t ∈ trees m.stack, t.Accepted) (hm : Moves m.view c) :
    ∃ m', Steps m m' ∧ Sound text m' ∧ (∀ t ∈ trees m'.stack, t.Accepted) ∧
      (m'.view = c ∨ ∃ x, m'.Refuses x) := by
  generalize hv : m.view = v at hm
  induction hm using Relation.ReflTransGen.head_induction_on generalizing m with
  | refl => exact ⟨m, .refl, h, ha, .inl hv⟩
  | head hmove _ ih =>
    rcases Move.step_or_refused hi h ha (hv ▸ hmove) with ⟨m₁, hstep, h₁, ha₁, hv₁⟩ | hrefuses
    · obtain ⟨m', hsteps, hm'⟩ := ih h₁ ha₁ hv₁
      exact ⟨m', .head hstep hsteps, hm'⟩
    · exact ⟨m, .refl, h, ha, .inr hrefuses⟩

theorem refuses_of_infix (hi : text.illegal = none)
    (hd : Derives [.phrase .expression] (text.tokens.map (·.kind)))
    (ho : [.mark .dot, .mark .dot, .ident, .mark .assign] <:+: text.tokens.map (·.kind)) :
    ∃ m x, Steps (.start text) m ∧ Sound text m ∧ m.Refuses x := by
  obtain ⟨m, hsteps, h, ha, hv | ⟨x, hx⟩⟩ :=
    (moves_of_derives hd).steps_or_refused hi (.start text) (by simp [Machine.start])
  · -- Without a refused rule, the whole text would be read.
    obtain ⟨hstack, hinput⟩ := Prod.mk.inj hv
    have htop : Machine.top m.stack = 1 := by rw [← topState_map, hstack]; rfl
    obtain ⟨f, hf, hok, hsym, htokens, -⟩ := h.accept (List.map_eq_nil_iff.1 hinput)
      (h.stop.trans hi) (by rw [htop]; exact (TableFacts.whole tableFacts).2.2)
    refine absurd ho ?_
    rw [← htokens]
    exact not_infix_of_accepted hok (ha f.tree (by simp [hf])) hsym
  · exact ⟨m, x, hsteps, h, hx⟩

/-! ## What a refused rule does -/

theorem of_refusal_forLoop (h : refusal? r ts = some .forLoop) : r = .forLoop := by
  rw [refusal?.eq_def] at h
  split at h
  · cases h
  · rfl
  · cases h

theorem of_refusal_outerAssignment (h : refusal? r ts = some .outerAssignment) :
    r = .memberAssignment ∧ ∃ ls us vs, ts = node .dotsMore ls us :: vs := by
  rw [refusal?.eq_def] at h
  split at h
  · exact ⟨rfl, _, _, _, rfl⟩
  · cases h
  · cases h

theorem look_memberAssignment : (List.range 196).all (fun p => (row p).reduce.all fun (r, looks) =>
    r != .memberAssignment || looks.all (ending 0).contains) = true := by
  decide +kernel

section
variable {text : Lexed} {m : Machine}

theorem Machine.Refuses.forLoop (hx : m.Refuses .forLoop) (hi : text.illegal = none)
    (h : Sound text m) :
    .word .for_ ∈ text.tokens.map (·.kind) ∧ m.step = .halt .forLoop := by
  obtain ⟨r, hr, hrefuse⟩ := hx
  obtain rfl := of_refusal_forLoop hrefuse
  obtain ⟨hsym, -, -⟩ := h.linked.children hr
  constructor
  · obtain ⟨a, as, hchildren, ha, -⟩ := List.map_eq_cons_iff.1 hsym
    obtain ⟨tok, rfl, hk⟩ := eq_leaf ha
    rw [← h.tokens, ← trees_take_drop Rule.forLoop.rhs.length m.stack, hchildren]
    simp [hk]
  · rw [Machine.step_reduce (h.stop.trans hi) (by decide) hr, Machine.reduce]
    rw [trees] at hrefuse
    simp only [hrefuse]

/-- A refused assignment has two dots or more and ends where an expression ends; it is dropped with
    all that was read before it, and the token behind it. -/
theorem Machine.Refuses.outerAssignment (hx : m.Refuses .outerAssignment)
    (hi : text.illegal = none) (h : Sound text m) :
    ∃ before assigned, text.tokens = before ++ assigned ++ m.input ∧
      Derives [.phrase .memberAssignment] (assigned.map (·.kind)) ∧
      [.mark .dot, .mark .dot] <+: assigned.map (·.kind) ∧ m.look ∈ ending 0 ∧
      m.step = .next ⟨[], m.input.tail, none, 3⟩ := by
  obtain ⟨r, hr, hrefuse⟩ := hx
  obtain ⟨rfl, ls, us, vs, hchildren⟩ := of_refusal_outerAssignment hrefuse
  obtain ⟨hsym, hok, -⟩ := h.linked.children hr
  have hsplit := trees_take_drop Rule.memberAssignment.rhs.length m.stack
  refine ⟨tokensOf (trees (m.stack.drop Rule.memberAssignment.rhs.length)),
    tokensOf (trees (m.stack.take Rule.memberAssignment.rhs.length)), ?_, ?_, ?_, ?_, ?_⟩
  · rw [← h.tokens, ← hsplit, tokensOf_append]
  · have hbody := derives_of_forall fun t ht => derives_of_ok (hok t ht)
    rw [hsym] at hbody
    exact hbody.rule
  · rw [hchildren] at hok ⊢
    cases hok _ (.head vs) with
    | node _ hus hu =>
      obtain ⟨d, ds, rfl, hd, hmore⟩ := List.map_eq_cons_iff.1 hus
      obtain ⟨e, rfl, he⟩ := List.map_eq_singleton_iff.1 hmore
      obtain ⟨tok, rfl, hk⟩ := eq_leaf hd
      obtain ⟨n, hn⟩ := kinds_dots (hu e (by simp)) he
      have hdots : e.tokens.map (·.kind) = List.replicate (n + 1) (.mark .dot) := hn
      refine ⟨List.replicate n (.mark .dot) ++ (tokensOf vs).map (·.kind), ?_⟩
      simp [hk, hdots, List.replicate_succ]
  · obtain ⟨looks, hlooks, hlook⟩ := Row.of_reduce? hr
    have hp := List.all_eq_true.1 look_memberAssignment _ (List.mem_range.2 (lt_of_reduce? hr))
    rw [hlooks] at hp
    simp only [Option.all_some, bne_self_eq_false, Bool.false_or, List.all_eq_true,
      List.contains_iff_mem] at hp
    exact hp m.look hlook
  · rw [Machine.step_reduce (h.stop.trans hi) (by decide) hr, Machine.reduce]
    rw [trees] at hrefuse
    simp only [hrefuse, Machine.restart, h.stop, hi]

end

/-! ## Reading anew -/

/-- Reading that starts anew, with three tokens on trial. -/
def resume (ts : List Token) : Outcome := Machine.run (enough ts.length) ⟨[], ts, none, 3⟩

theorem tokens_of_run {ts : List Token} {fuel : Nat} (h : Linked m.stack)
    (hm : tokensOf (trees m.stack) ++ m.input <:+ ts) (hrun : m.run fuel = .tree t) :
    t.tokens <:+ ts := by
  induction fuel generalizing m with
  | zero => cases hrun
  | succ fuel ih =>
    rw [Machine.run] at hrun
    cases hstep : m.step with
    | halt o =>
      rw [hstep] at hrun
      obtain rfl : o = .tree t := hrun
      rcases Machine.of_halt hstep with ⟨f, hf, hin, hstack⟩ | ho | ho | ⟨ho, -⟩ | ⟨c, ho, -⟩
      · cases hf
        simpa [hin, hstack] using hm
      all_goals cases ho
    | next m' =>
      rw [hstep] at hrun
      refine ih (h.next hstep).1 ?_ hrun
      have hrestart : tokensOf (trees m.restart.stack) ++ m.restart.input <:+ ts :=
        (List.tail_suffix _).trans ((List.suffix_append _ _).trans hm)
      rcases Machine.of_step hstep with ⟨t, rest, s, hin, -, rfl⟩ | ⟨r, hr, hne, hred⟩ | ⟨-, -, rfl⟩
      · simpa [hin] using hm
      · obtain ⟨f, hf, hg, -, htokens, -⟩ := h.reduced hr hne
        rcases Machine.of_reduce hred with ⟨-, rfl⟩ | ⟨hrefuse, -⟩
        · exact hrestart
        · cases hred.symm.trans (Machine.reduce_eq hf hg hrefuse)
          dsimp only
          rwa [htokens]
      · exact hrestart

theorem resume_tokens {ts : List Token} (h : resume ts = .tree t) : t.tokens <:+ ts := by
  have hlinked : Linked (Machine.stack ⟨[], ts, none, 3⟩) := trivial
  exact tokens_of_run hlinked (List.suffix_refl ts) h

/-- What a run says about its text. -/
def Outcome.read : Outcome → Except ReadFault (Option Expr)
  | .tree t => .ok t.expr?
  | .nothing => .ok none
  | .unexpected t => .error (.syntax_ (.unexpected t))
  | .illegal c => .error (.syntax_ (.illegal c))
  | .forLoop => .error .forLoop

theorem parse_eq_read (text : String) : parse text = (derive (lex text)).read := by
  rw [parse]
  cases derive (lex text) <;> rfl

theorem no_fault_of_run {fuel : Nat} (hstop : m.stop = none) (hin : m.input.length < m.trial)
    (htrial : m.trial ≤ 3) (f : SyntaxFault) : (m.run fuel).read ≠ .error (.syntax_ f) := by
  induction fuel generalizing m with
  | zero =>
    intro h
    cases h
  | succ fuel ih =>
    rw [Machine.run]
    cases hstep : m.step with
    | halt o =>
      intro h
      rcases Machine.of_halt hstep with ⟨f, rfl, -⟩ | rfl | rfl | ⟨-, h₀⟩ | ⟨c, -, hc⟩
      · cases h
      · cases h
      · cases h
      · rw [h₀] at hin
        cases hin
      · cases hstop.symm.trans hc
    | next m' =>
      have htail := m.input.length_tail
      have hrestart : m.restart.input.length < 3 := by
        show m.input.tail.length < 3
        omega
      rcases Machine.of_step hstep with ⟨t, rest, s, hi, -, rfl⟩ | ⟨r, -, -, hred⟩ | ⟨-, -, rfl⟩
      · rw [hi, List.length_cons] at hin
        exact ih hstop (by dsimp only; omega) (by dsimp only; omega)
      · rcases Machine.of_reduce hred with ⟨-, rfl⟩ | ⟨-, f, rfl⟩
        · exact ih hstop hrestart (Nat.le_refl 3)
        · exact ih hstop hin htrial
      · exact ih hstop hrestart (Nat.le_refl 3)

end Grammar

open Grammar

/-! ## Texts -/

/-- **A text with an assignment to an outer member is read from behind it on.**  Unless a `for` ends
the run first, there is an assignment with two dots or more, reaching as far as it can, such that
the text means what stands behind the token after it means, read anew with three tokens on trial.
So the text as a whole is never what is read, and a fault is only reported if there are four tokens
or more behind the assignment. -/
theorem outer_assignment_drops (text : String) (hi : (lex text).illegal = none)
    (hd : Derives [.phrase .expression] ((lex text).tokens.map (·.kind)))
    (ho : [.mark .dot, .mark .dot, .ident, .mark .assign] <:+: (lex text).tokens.map (·.kind)) :
    (.word .for_ ∈ (lex text).tokens.map (·.kind) ∧ parse text = .error .forLoop) ∨
      ∃ before assigned behind, (lex text).tokens = before ++ assigned ++ behind ∧
        Derives [.phrase .memberAssignment] (assigned.map (·.kind)) ∧
        [.mark .dot, .mark .dot] <+: assigned.map (·.kind) ∧
        (behind.map (·.kind)).head? ∈ ending 0 ∧
        parse text = (resume behind.tail).read ∧
        (∀ t, resume behind.tail = .tree t → t.tokens <:+ behind.tail) ∧
        (behind.length ≤ 3 → ∀ f, parse text ≠ .error (.syntax_ f)) := by
  obtain ⟨m, x, hsteps, h, hx⟩ := refuses_of_infix hi hd ho
  rw [parse_eq_read]
  cases x with
  | forLoop =>
    obtain ⟨hfor, hhalt⟩ := hx.forLoop hi h
    have hrun : derive (lex text) = m.run (m.left + 1) :=
      hsteps.run_eq trivial (left_start _) (Nat.lt_succ_self _)
    refine .inl ⟨hfor, ?_⟩
    rw [hrun, Machine.run, hhalt]
    rfl
  | outerAssignment =>
    obtain ⟨before, assigned, htokens, hassigned, hdots, hlook, hstep⟩ := hx.outerAssignment hi h
    have hrun : derive (lex text) = resume m.input.tail :=
      Steps.run_eq (hsteps.tail hstep) trivial (left_start _) (left_lt_enough _ _ _)
    rw [hrun]
    have htail := m.input.length_tail
    exact .inr ⟨before, assigned, m.input, htokens, hassigned, hdots, hlook, rfl,
      fun t ht => resume_tokens ht,
      fun hlength f => no_fault_of_run rfl (by dsimp only; omega) (Nat.le_refl 3) f⟩

theorem lex_outer : lex "(..x = 1) + 5" = ⟨[⟨.mark .lparen, "(", 1, 0⟩, ⟨.mark .dot, ".", 1, 1⟩,
    ⟨.mark .dot, ".", 1, 2⟩, ⟨.ident, "x", 1, 3⟩, ⟨.mark .assign, "=", 1, 5⟩, ⟨.number, "1", 1, 7⟩,
    ⟨.mark .rparen, ")", 1, 8⟩, ⟨.mark .plus, "+", 1, 10⟩, ⟨.number, "5", 1, 12⟩], none, 1⟩ :=
  lex_eq (by decide +kernel)

theorem derives_outer : Derives [.phrase .expression] [.mark .lparen, .mark .dot, .mark .dot,
    .ident, .mark .assign, .number, .mark .rparen, .mark .plus, .number] := by
  have hone : Derives [.phrase .expression] [.number] := .rule (r := .number) (.token .nil)
  have hdot : Derives [.phrase .dots] [.mark .dot] := .rule (r := .dotsOne) (.token .nil)
  have hdots : Derives [.phrase .dots] [.mark .dot, .mark .dot] :=
    .rule (r := .dotsMore) (.token hdot)
  have hassign : Derives [.phrase .expression]
      [.mark .dot, .mark .dot, .ident, .mark .assign, .number] :=
    .rule (r := .ofMemberAssignment)
      (.rule (r := .memberAssignment) (hdots.append (.token (.token hone))))
  have hparen : Derives [.phrase .expression]
      ([.mark .lparen] ++ [.mark .dot, .mark .dot, .ident, .mark .assign, .number] ++
        [.mark .rparen]) :=
    .rule (r := .paren) (.token (hassign.append (.token .nil)))
  exact .rule (r := .binary .plus) (hparen.append (.token hone))

/-- The end of a text is read as if it were all of it. -/
theorem outer_assignment_drops_sum :
    (∃ before assigned behind, (lex "(..x = 1) + 5").tokens = before ++ assigned ++ behind ∧
      [.mark .dot, .mark .dot] <+: assigned.map (·.kind) ∧
      parse "(..x = 1) + 5" = (resume behind.tail).read) ∧
    parse "(..x = 1) + 5" = .ok (some (.unary ⟨[], 1, 1⟩ .plus (.number ⟨[], 1, 1⟩ "5"))) := by
  have hi : (lex "(..x = 1) + 5").illegal = none := by rw [lex_outer]
  have hd : Derives [.phrase .expression] ((lex "(..x = 1) + 5").tokens.map (·.kind)) := by
    rw [lex_outer]
    exact derives_outer
  have ho : [.mark .dot, .mark .dot, .ident, .mark .assign] <:+:
      (lex "(..x = 1) + 5").tokens.map (·.kind) := by
    rw [lex_outer]
    decide
  constructor
  · rcases outer_assignment_drops _ hi hd ho with ⟨hfor, -⟩ | h
    · refine absurd hfor ?_
      rw [lex_outer]
      decide
    · obtain ⟨before, assigned, behind, htokens, -, hdots, -, hparse, -⟩ := h
      exact ⟨before, assigned, behind, htokens, hdots, hparse⟩
  · rw [parse_eq_read, lex_outer]
    cbv

end ExprLang
