/-
  Texts that are known in part.

  A pattern is a derivation down to some symbols, each with the pieces that stand for it.  Which
  derivation these pieces have is left open, so the text of a pattern may hold any operators, and
  whatever else needs no parentheses.

  * `Moves.steps`: the moves of the automaton above a state are steps of the machine above a stack.
    That they do not reach below it is seen by putting states there that do not exist;
  * `steps_of_derives`: so where a phrase is expected, and what stands behind it closes it, the
    machine has one tree over its tokens on top of what it had before;
  * `Pattern.check` follows the table over a pattern, and `steps_of_pattern`: if it gets to the end,
    the machine builds a tree that agrees with the pattern;
  * `parse_of_pattern`: so it does for a whole text.
-/
import ExprLang.Proofs.ParseTidy
import ExprLang.Proofs.Printing
import ExprLang.Source

namespace ExprLang.Grammar

open ExprLang.Grammar.Tree

/-! ## Symbols and states -/

/-- Every state but the first is reached over one symbol only. -/
theorem symbol_unique {p q s : Nat} {x y : Symbol} (hx : transition p x = some s)
    (hy : transition q y = some s) : x = y := by
  have hitems : (List.range 196).all (fun p => (row p).edges.all fun e =>
      !(items.getD e.2 []).isEmpty) = true := by decide +kernel
  have hp := List.all_eq_true.1 hitems p (List.mem_range.2 (lt_of_transition hx))
  have hs : items.getD s [] ≠ [] := by simpa using List.all_eq_true.1 hp _ (mem_edges hx)
  obtain ⟨⟨r, i⟩, more, hmore⟩ := List.exists_cons_of_ne_nil hs
  have hmem : (r, i) ∈ items.getD s [] := by simp [hmore]
  have hread : ∀ {p : Nat} {x : Symbol}, transition p x = some s → r.rhs[i - 1]? = some x := by
    intro p x h
    have hc := ((edge_checked h).2.1 r i hmem).2
    rw [continues, Bool.and_eq_true, beq_iff_eq] at hc
    exact hc.1
  exact Option.some.inj ((hread hx).symm.trans (hread hy))

theorem transition_beyond (x : Symbol) : transition 196 x = none := by
  cases x <;> rw [transition, row_eq (Nat.le_refl _)] <;> rfl

theorem Rule.length_rhs_le (r : Rule) : r.rhs.length ≤ 8 := by
  cases r <;> simp [Rule.rhs]

/-! ## Moves above a stack -/

/-- States that do not exist. -/
def beneath : List Nat := List.replicate 8 196

theorem topState_above (gs fs : List Frame) :
    topState (gs.map Frame.state ++ Machine.top fs :: beneath) = Machine.top (gs ++ fs) := by
  cases gs <;> rfl

theorem length_le_of_reduce {ss : List Nat} {p s : Nat} {r : Rule}
    (h : transition (topState ((ss ++ p :: beneath).drop r.rhs.length)) (.phrase r.lhs) = some s) :
    r.rhs.length ≤ ss.length := by
  by_contra hlt
  have hrhs := r.length_rhs_le
  obtain ⟨k, hk⟩ : ∃ k, r.rhs.length = ss.length + 1 + k := ⟨r.rhs.length - ss.length - 1, by omega⟩
  have hdrop : (ss ++ p :: beneath).drop r.rhs.length = List.replicate (8 - k) 196 := by
    rw [hk, Nat.add_assoc, ← List.drop_drop, List.drop_left, Nat.add_comm, List.drop_succ_cons,
      beneath, List.drop_replicate]
  obtain ⟨j, hj⟩ : ∃ j, 8 - k = j + 1 := ⟨7 - k, by omega⟩
  rw [hdrop, hj, List.replicate_succ, topState, transition_beyond] at h
  cases h

theorem Move.steps {gs fs : List Frame} {input : List Token} {c : List Nat × List Kind}
    (hl : Linked (gs ++ fs)) (hp : Plain ((tokensOf (trees gs) ++ input).map (·.kind)))
    (hm : Move (gs.map Frame.state ++ Machine.top fs :: beneath, input.map (·.kind)) c) :
    ∃ gs' input', Steps ⟨gs ++ fs, input, none, 0⟩ ⟨gs' ++ fs, input', none, 0⟩ ∧
      Linked (gs' ++ fs) ∧ tokensOf (trees gs') ++ input' = tokensOf (trees gs) ++ input ∧
      c = (gs'.map Frame.state ++ Machine.top fs :: beneath, input'.map (·.kind)) := by
  generalize hv : (gs.map Frame.state ++ Machine.top fs :: beneath, input.map (·.kind)) = v at hm
  cases hm with
  | @shift σ k w s hs =>
    obtain ⟨rfl, hw⟩ := Prod.mk.inj hv
    obtain ⟨t, rest, rfl, rfl, rfl⟩ := List.map_eq_cons_iff.1 hw
    rw [topState_above] at hs
    exact ⟨⟨s, leaf t⟩ :: gs, rest, .single (Machine.step_shift rfl hs), ⟨hs, .leaf t, hl⟩,
      by simp, rfl⟩
  | @reduce σ w r s hr hs hg =>
    obtain ⟨rfl, rfl⟩ := Prod.mk.inj hv
    rw [topState_above] at hr
    have hlen : r.rhs.length ≤ gs.length := by simpa using length_le_of_reduce hg
    have hsplit : gs.take r.rhs.length ++ gs.drop r.rhs.length = gs := List.take_append_drop _ _
    have htake : (gs ++ fs).take r.rhs.length = gs.take r.rhs.length :=
      List.take_append_of_le_length hlen
    have hdrop : (gs.map Frame.state ++ Machine.top fs :: beneath).drop r.rhs.length =
        (gs.drop r.rhs.length).map Frame.state ++ Machine.top fs :: beneath := by
      rw [List.drop_append_of_le_length (by simpa using hlen), List.map_drop]
    rw [hdrop, topState_above] at hg
    obtain ⟨hsym, hok, -⟩ := hl.children hr
    rw [htake] at hsym hok
    have hrefuse : refusal? r (trees (gs.take r.rhs.length)) = none := by
      refine refusal?_eq_none hok hsym (hp.of_infix ?_)
      rw [← trees_take_drop r.rhs.length gs, tokensOf_append, List.map_append, List.map_append]
      exact ⟨_, _, rfl⟩
    have hlinked : Linked (gs.drop r.rhs.length ++ fs) := by
      rw [← List.drop_append_of_le_length hlen]
      exact hl.drop _
    refine ⟨⟨s, .apply r (trees (gs.take r.rhs.length))⟩ :: gs.drop r.rhs.length, input, ?_,
      ⟨hg, .node hs hsym hok, hlinked⟩, ?_, by rw [hdrop]; rfl⟩
    · have hreduce : Steps ⟨gs.take r.rhs.length ++ (gs.drop r.rhs.length ++ fs), input, none, 0⟩ _ :=
        steps_reduce hs (by rw [List.length_take, Nat.min_eq_left hlen])
          (by rw [← List.append_assoc, hsplit]; exact hr) hrefuse hg
      rw [← List.append_assoc, hsplit] at hreduce
      exact hreduce
    · rw [← trees_take_drop r.rhs.length gs]
      simp [Tree.apply]

/-- **Moves above a state are steps above a stack.** -/
theorem Moves.steps {gs fs : List Frame} {input : List Token} {c : List Nat × List Kind}
    (hl : Linked (gs ++ fs)) (hp : Plain ((tokensOf (trees gs) ++ input).map (·.kind)))
    (hm : Moves (gs.map Frame.state ++ Machine.top fs :: beneath, input.map (·.kind)) c) :
    ∃ gs' input', Steps ⟨gs ++ fs, input, none, 0⟩ ⟨gs' ++ fs, input', none, 0⟩ ∧
      Linked (gs' ++ fs) ∧ tokensOf (trees gs') ++ input' = tokensOf (trees gs) ++ input ∧
      c = (gs'.map Frame.state ++ Machine.top fs :: beneath, input'.map (·.kind)) := by
  induction hm with
  | refl => exact ⟨gs, input, .refl, hl, rfl, rfl⟩
  | tail _ hmove ih =>
    obtain ⟨gs₁, input₁, hsteps, hl₁, htokens, rfl⟩ := ih
    obtain ⟨gs₂, input₂, hsteps', hl₂, htokens', rfl⟩ := Move.steps hl₁ (htokens ▸ hp) hmove
    exact ⟨gs₂, input₂, hsteps.trans hsteps', hl₂, htokens'.trans htokens, rfl⟩

/-! ## Parts -/

variable {fs : List Frame} {rest : List Token}

/-- **A phrase is read over its own tokens**, if what stands behind it closes it. -/
theorem steps_of_derives {x : Symbol} {ts : List Token} {s : Nat}
    (hd : Derives [x] (ts.map (·.kind))) (hp : Plain ((ts ++ rest).map (·.kind)))
    (hl : Linked fs) (hs : transition (Machine.top fs) x = some s)
    (hsolid : x = .phrase .expression → solid (Machine.top fs) = true)
    (hrest : ∀ a, x = .phrase a → lookOf rest ∈ closes a) :
    ∃ t : Tree, t.Ok ∧ t.symbol = x ∧ t.tokens = ts ∧
      Steps ⟨fs, ts ++ rest, none, 0⟩ ⟨⟨s, t⟩ :: fs, rest, none, 0⟩ := by
  obtain ⟨us, hus, hok, hkinds⟩ := ok_of_derives hd
  obtain ⟨u, rfl, rfl⟩ := List.map_eq_singleton_iff.1 hus
  rw [kindsOf_cons, kindsOf_nil, List.append_nil] at hkinds
  have hread : Moves (Machine.top fs :: beneath, (ts ++ rest).map (·.kind))
      (s :: Machine.top fs :: beneath, rest.map (·.kind)) := by
    rw [List.map_append, ← hkinds]
    exact (reads_of_ok (hok u (by simp))).1 hs hsolid hrest
  obtain ⟨gs, input, hsteps, hlinked, htokens, hv⟩ :=
    Moves.steps (List.nil_append fs ▸ hl : Linked ([] ++ fs)) (by simpa using hp) hread
  obtain ⟨hstates, hinput⟩ := Prod.mk.inj hv
  -- One state was added, so one tree stands above the stack.
  have hone : gs.map Frame.state = [s] :=
    (List.append_cancel_right (hstates : [s] ++ Machine.top fs :: beneath = _)).symm
  obtain ⟨⟨s', t⟩, rfl, rfl⟩ := List.map_eq_singleton_iff.1 hone
  have hsplit : t.tokens ++ input = ts ++ rest := by simpa [trees] using htokens
  obtain ⟨rfl, rfl⟩ : t.tokens = ts ∧ input = rest :=
    List.append_inj' hsplit (by simpa using (congrArg List.length hinput).symm)
  exact ⟨t, hlinked.2.1, symbol_unique hlinked.1 hs, rfl, hsteps⟩

/-! ## Patterns -/

/-- A derivation that is known down to some symbols, each with the pieces that stand for it. -/
inductive Pattern where
  | leaf (x : Symbol) (ps : List Piece)
  | node (r : Rule) (ks : List Pattern)

namespace Pattern

def token (p : Piece) : Pattern := leaf (.token p.kind) [p]

def phrase (a : Phrase) (ps : List Piece) : Pattern := leaf (.phrase a) ps

def symbol : Pattern → Symbol
  | leaf x _ => x
  | node r _ => .phrase r.lhs

mutual

def leaves : Pattern → List (Symbol × List Piece)
  | leaf x ps => [(x, ps)]
  | node _ ks => leavesOf ks

def leavesOf : List Pattern → List (Symbol × List Piece)
  | [] => []
  | k :: ks => k.leaves ++ leavesOf ks

end

def piecesOf (ls : List (Symbol × List Piece)) : List Piece := ls.flatMap (·.2)

def pieces (k : Pattern) : List Piece := piecesOf k.leaves

def Derived (l : Symbol × List Piece) : Prop := Derives [l.1] (l.2.map (·.kind))

/-- So can those of all leaves. -/
def Derivable (k : Pattern) : Prop := ∀ l ∈ k.leaves, Derived l

theorem leavesOf_eq (ks : List Pattern) : leavesOf ks = ks.flatMap leaves := by
  induction ks with
  | nil => rfl
  | cons k ks ih => rw [leavesOf, ih, List.flatMap_cons]

@[simp] theorem pieces_token (p : Piece) : (token p).pieces = [p] := rfl

@[simp] theorem pieces_phrase (a : Phrase) (ps : List Piece) : (phrase a ps).pieces = ps := by
  simp [phrase, pieces, piecesOf, leaves]

@[simp] theorem pieces_node (r : Rule) (ks : List Pattern) :
    (node r ks).pieces = ks.flatMap pieces := by
  rw [pieces, leaves, leavesOf_eq, piecesOf, List.flatMap_assoc]
  rfl

@[simp] theorem derivable_token (p : Piece) : (token p).Derivable := by
  intro l hl
  obtain rfl := List.mem_singleton.1 hl
  exact .token .nil

@[simp] theorem derivable_phrase (a : Phrase) (ps : List Piece) :
    (phrase a ps).Derivable ↔ Derives [.phrase a] (ps.map (·.kind)) := by
  simp [Derivable, phrase, leaves, Derived]

@[simp] theorem derivable_node (r : Rule) (ks : List Pattern) :
    (node r ks).Derivable ↔ ∀ k ∈ ks, k.Derivable := by
  rw [Derivable, leaves, leavesOf_eq]
  simp only [List.mem_flatMap]
  constructor
  · intro h k hk l hl
    exact h l ⟨k, hk, hl⟩
  · rintro h l ⟨k, hk, hl⟩
    exact h k hk l hl

mutual

def Matches : Pattern → Tree → Prop
  | leaf x ps, t => t.Ok ∧ t.symbol = x ∧ t.tokens.map Token.piece = ps
  | node r ks, t => ∃ ts, t = .apply r ts ∧ MatchAll ks ts

def MatchAll : List Pattern → List Tree → Prop
  | [], ts => ts = []
  | k :: ks, us => ∃ t ts, us = t :: ts ∧ k.Matches t ∧ MatchAll ks ts

end

/-- A symbol is read whatever stands for it, if `next` comes behind it. -/
def admits (next : Option Look) (p : Nat) : Symbol → Bool
  | .token _ => true
  | .phrase a => (a != .expression || solid p) && next.any (closes a).contains

theorem of_admits {next : Option Look} {p : Nat} {a : Phrase} {look : Look}
    (h : admits next p (.phrase a) = true) (hnext : ∀ l, next = some l → look = l) :
    (a = .expression → solid p = true) ∧ look ∈ closes a := by
  rw [admits, Bool.and_eq_true, Bool.or_eq_true, bne_iff_ne, Option.any_eq_true] at h
  obtain ⟨hsolid, l, hl, hclose⟩ := h
  refine ⟨fun ha => hsolid.resolve_left fun hne => hne ha, ?_⟩
  rw [hnext l hl]
  exact List.contains_iff_mem.1 hclose

def upcoming (next : Option Look) : List Symbol → Option Look
  | [] => next
  | x :: ss => ahead none (x :: ss)

theorem ahead_cons (look look' : Look) (x : Symbol) (ss : List Symbol) :
    ahead look (x :: ss) = ahead look' (x :: ss) := by
  cases x with
  | token k => rfl
  | phrase a => cases a <;> rfl

mutual

/-- The state in which the automaton is after the pattern, if `next` comes behind it. -/
def check (next : Option Look) (p : Nat) : Pattern → Option Nat
  | leaf x _ => if admits next p x then transition p x else none
  | node r ks => (checkAll next p ks).bind fun q =>
    if r ≠ .start ∧ ks.map symbol = r.rhs ∧ next.any fun look => (row q).reduce? look == some r then
      transition p (.phrase r.lhs)
    else none

def checkAll (next : Option Look) (p : Nat) : List Pattern → Option Nat
  | [] => some p
  | k :: ks => (k.check (upcoming next ((leavesOf ks).map (·.1))) p).bind fun s =>
    checkAll next s ks

end

mutual

def bare : Pattern → Pattern
  | leaf x _ => leaf x []
  | node r ks => node r (bareAll ks)

def bareAll : List Pattern → List Pattern
  | [] => []
  | k :: ks => k.bare :: bareAll ks

end

theorem symbol_bare (k : Pattern) : k.bare.symbol = k.symbol := by
  cases k <;> rfl

theorem map_symbol_bareAll (ks : List Pattern) : (bareAll ks).map symbol = ks.map symbol := by
  induction ks with
  | nil => rfl
  | cons k ks ih => rw [bareAll, List.map_cons, List.map_cons, symbol_bare, ih]

mutual

theorem leaves_bare : ∀ k : Pattern, k.bare.leaves.map (·.1) = k.leaves.map (·.1)
  | leaf x ps => rfl
  | node r ks => by
    rw [bare, leaves, leaves]
    exact leavesOf_bareAll ks

theorem leavesOf_bareAll : ∀ ks : List Pattern,
    (leavesOf (bareAll ks)).map (·.1) = (leavesOf ks).map (·.1)
  | [] => rfl
  | k :: ks => by
    rw [bareAll, leavesOf, leavesOf, List.map_append, List.map_append, leaves_bare k,
      leavesOf_bareAll ks]

end

mutual

/-- What the pieces are makes no difference to the automaton. -/
theorem check_bare (next : Option Look) (p : Nat) :
    ∀ k : Pattern, k.bare.check next p = k.check next p
  | leaf x ps => rfl
  | node r ks => by
    rw [bare, check, check, checkAll_bareAll next p ks, map_symbol_bareAll]

theorem checkAll_bareAll (next : Option Look) (p : Nat) : ∀ ks : List Pattern,
    checkAll next p (bareAll ks) = checkAll next p ks
  | [] => rfl
  | k :: ks => by
    rw [bareAll, checkAll, checkAll, leavesOf_bareAll, check_bare _ p k]
    exact Option.bind_congr fun s _ => checkAll_bareAll next s ks

end

theorem derives_of_derived : ∀ {ls : List (Symbol × List Piece)}, (∀ l ∈ ls, Derived l) →
    Derives (ls.map (·.1)) ((piecesOf ls).map (·.kind))
  | [], _ => .nil
  | l :: ls, h => by
    obtain ⟨hl, hls⟩ := List.forall_mem_cons.1 h
    rw [piecesOf, List.flatMap_cons, List.map_append]
    exact Derives.append hl (derives_of_derived hls)

/-- What stands behind a part is known from the leaves that follow. -/
theorem lookOf_of_upcoming {ls : List (Symbol × List Piece)} {ts rest : List Token}
    {next : Option Look} (h : ∀ l ∈ ls, Derived l) (hts : ts.map Token.piece = piecesOf ls)
    (hnext : ∀ l, next = some l → lookOf rest = l) :
    ∀ l, upcoming next (ls.map (·.1)) = some l → lookOf (ts ++ rest) = l := by
  intro l hl
  obtain ⟨us, hus, hok, hkinds⟩ := ok_of_derives (derives_of_derived h)
  have hsame : lookOf (tokensOf us ++ rest) = lookOf (ts ++ rest) := by
    have hall : (tokensOf us).map (·.kind) = ts.map (·.kind) := by
      rw [← kindsOf, hkinds, ← hts, List.map_map]
      rfl
    rw [lookOf, lookOf, List.map_append, List.map_append, hall]
  rw [← hus] at hl
  rw [← hsame]
  cases us with
  | nil => exact hnext l hl
  | cons u us => exact lookOf_of_ahead hok (hl ▸ ahead_cons (lookOf rest) none ..)

end Pattern

open Pattern

mutual

/-- **What agrees with the table is read as the pattern says.** -/
theorem steps_of_pattern {rest : List Token} : ∀ (k : Pattern) {fs : List Frame} {ts : List Token}
    {next : Option Look} {s : Nat}, k.Derivable → ts.map Token.piece = k.pieces →
    Plain ((ts ++ rest).map (·.kind)) → Linked fs → (∀ l, next = some l → lookOf rest = l) →
    k.check next (Machine.top fs) = some s →
    ∃ t : Tree, k.Matches t ∧ t.tokens = ts ∧ t.symbol = k.symbol ∧ Linked (⟨s, t⟩ :: fs) ∧
      Steps ⟨fs, ts ++ rest, none, 0⟩ ⟨⟨s, t⟩ :: fs, rest, none, 0⟩
  | .leaf x ps, fs, ts, next, s, hd, hts, hp, hl, hnext, hs => by
    rw [check] at hs
    split_ifs at hs with hadmits
    have hps : ts.map Token.piece = ps := by simpa [pieces, piecesOf, leaves] using hts
    have hx : Derives [x] (ts.map (·.kind)) := by
      have hleaf := hd (x, ps) (by simp [leaves])
      rw [Derived, ← hps, List.map_map] at hleaf
      exact hleaf
    obtain ⟨t, hok, hsym, rfl, hsteps⟩ := steps_of_derives hx hp hl hs
      (by rintro rfl; exact (of_admits hadmits hnext).1 rfl)
      (by rintro a rfl; exact (of_admits hadmits hnext).2)
    exact ⟨t, ⟨hok, hsym, hps⟩, rfl, hsym, ⟨by rw [hsym]; exact hs, hok, hl⟩, hsteps⟩
  | .node r ks, fs, ts, next, s, hd, hts, hp, hl, hnext, hs => by
    rw [check] at hs
    obtain ⟨q, hq, hs⟩ := Option.bind_eq_some_iff.1 hs
    split_ifs at hs with hr
    obtain ⟨hr, hrhs, hred⟩ := hr
    obtain ⟨look, hlook, hred⟩ := (Option.any_eq_true ..).1 hred
    rw [← hnext look hlook, beq_iff_eq] at hred
    obtain ⟨gs, hmatch, rfl, hsyms, hlinked, rfl, hsteps⟩ :=
      steps_of_patterns ks hd hts hp hl hnext hq
    have hlen : gs.length = r.rhs.length := by
      simpa [trees] using congrArg List.length (hsyms.trans hrhs)
    have hok : ∀ u ∈ trees gs, u.Ok := fun u hu => hlinked.ok u (by simp_all [trees])
    have hplain : Plain (kindsOf (trees gs)) :=
      hp.of_infix ⟨[], rest.map (·.kind), by simp [kindsOf]⟩
    have hreduce := steps_reduce hr hlen hred (refusal?_eq_none hok (hsyms.trans hrhs) hplain) hs
    exact ⟨.apply r (trees gs), ⟨_, rfl, hmatch⟩, rfl, rfl,
      ⟨hs, .node hr (hsyms.trans hrhs) hok, hl⟩, hsteps.trans hreduce⟩

theorem steps_of_patterns {rest : List Token} : ∀ (ks : List Pattern) {fs : List Frame}
    {ts : List Token} {next : Option Look} {q : Nat}, (∀ l ∈ leavesOf ks, Derived l) →
    ts.map Token.piece = piecesOf (leavesOf ks) → Plain ((ts ++ rest).map (·.kind)) → Linked fs →
    (∀ l, next = some l → lookOf rest = l) → checkAll next (Machine.top fs) ks = some q →
    ∃ gs, MatchAll ks (trees gs) ∧ tokensOf (trees gs) = ts ∧
      (trees gs).map Tree.symbol = ks.map Pattern.symbol ∧ Linked (gs ++ fs) ∧
      Machine.top (gs ++ fs) = q ∧ Steps ⟨fs, ts ++ rest, none, 0⟩ ⟨gs ++ fs, rest, none, 0⟩
  | [], fs, ts, next, q, hd, hts, hp, hl, hnext, hq => by
    obtain rfl := List.map_eq_nil_iff.1 hts
    exact ⟨[], rfl, rfl, rfl, hl, Option.some.inj hq, .refl⟩
  | k :: ks, fs, ts, next, q, hd, hts, hp, hl, hnext, hq => by
    rw [leavesOf] at hd hts
    obtain ⟨hk, hks⟩ := List.forall_mem_append.1 hd
    rw [piecesOf, List.flatMap_append, List.map_eq_append_iff] at hts
    obtain ⟨ts, ts', rfl, hts, hts'⟩ := hts
    rw [checkAll] at hq
    obtain ⟨s, hs, hq⟩ := Option.bind_eq_some_iff.1 hq
    rw [List.append_assoc] at hp ⊢
    obtain ⟨t, hmatch, rfl, hsym, hlinked, hfirst⟩ :=
      steps_of_pattern k hk hts hp hl (lookOf_of_upcoming hks hts' hnext) hs
    have hplain : Plain ((ts' ++ rest).map (·.kind)) :=
      hp.of_infix ⟨t.tokens.map (·.kind), [], by simp⟩
    obtain ⟨gs, hmatches, rfl, hsyms, hlinked', rfl, hsteps⟩ :=
      steps_of_patterns ks hks hts' hplain hlinked hnext hq
    have happ : gs ++ ⟨s, t⟩ :: fs = (gs ++ [⟨s, t⟩]) ++ fs := by simp
    rw [happ] at hsteps hlinked' ⊢
    refine ⟨gs ++ [⟨s, t⟩], ?_, by simp [trees], by simpa [trees, hsym] using hsyms, hlinked', rfl,
      hfirst.trans hsteps⟩
    exact ⟨t, trees gs, by simp [trees], hmatch, hmatches⟩

end

/-! ## Texts -/

def Written (text : String) (ps : List Piece) : Prop :=
  (lex text).illegal = none ∧ (lex text).tokens.map Token.piece = ps

/-- **A text that is written as a pattern is read as the pattern says.** -/
theorem parse_of_pattern {text : String} {k : Pattern} (hw : Written text k.pieces)
    (hd : k.Derivable) (hp : Plain (k.pieces.map (·.kind)))
    (hc : k.bare.check (some none) 0 = some 1) :
    ∃ t : Tree, k.Matches t ∧ parse text = .ok t.expr? := by
  obtain ⟨hi, htokens⟩ := hw
  have hplain : Plain (((lex text).tokens ++ []).map (fun t : Token => t.kind)) := by
    rw [← htokens, List.map_map] at hp
    rw [List.append_nil]
    exact hp
  rw [check_bare] at hc
  have hempty : Linked [] := trivial
  obtain ⟨t, hmatch, -, -, hlinked, hsteps⟩ := steps_of_pattern k hd htokens hplain hempty
    (fun l hl => Option.some.inj hl) hc
  have hsym : t.symbol = .phrase .expression :=
    symbol_unique hlinked.1 (TableFacts.whole tableFacts).1
  have hstart : Machine.start (lex text) = ⟨[], (lex text).tokens ++ [], none, 0⟩ := by
    rw [Machine.start, hi, List.append_nil]
  refine ⟨t, hmatch, ?_⟩
  rw [parse, derive_of_steps hsym (hstart ▸ hsteps)]
  rfl

end ExprLang.Grammar
