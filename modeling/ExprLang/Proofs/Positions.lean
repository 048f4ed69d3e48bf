/-
  Where expressions stand.

  * `Tiles.lines`: the lines of the tokens of a text ascend;
  * `Tree.Lined t`: the lines of every rule in a tree are those of its parts, and `Lined.pos_lines`:
    then they are those of its first and last token;
  * `Tree.origin u n`: the tokens that a node made by the topmost rule of `u` stands on: those of
    `u`, unless the node is the target of an assignment;
  * `parse_positions`: the positions of what is read from a text are those of these tokens, so they
    are nested, and in a file only the name of the file is added.
-/
import ExprLang.Eval.Builtin
import ExprLang.Proofs.NodeOrigins
import ExprLang.Proofs.Precedence
import ExprLang.Proofs.Recovery
import ExprLang.Proofs.Texts
import ExprLang.Proofs.TokenPlaces

namespace ExprLang

/-! ## Lines of a text -/

def Ascending (ts : List Token) : Prop := ts.Pairwise fun a b => a.line ≤ b.line

theorem Tiles.lines {read upTo : List Char} {ts : List Token} (h : Tiles read ts upTo) :
    (∀ t ∈ ts, 1 + read.count '\n' ≤ t.line) ∧ Ascending ts := by
  induction h with
  | nil => exact ⟨by simp, .nil⟩
  | @cons read gap lexeme upTo t ts _ _ _ hline _ ih =>
    obtain ⟨hlater, hasc⟩ := ih
    simp only [List.count_append] at hlater hline
    refine ⟨List.forall_mem_cons.2 ⟨by omega, fun u hu => ?_⟩,
      List.pairwise_cons.2 ⟨fun u hu => ?_, hasc⟩⟩
    · have := hlater u hu
      omega
    · have := hlater u hu
      omega

theorem ascending_lex (text : String) : Ascending (lex text).tokens := by
  obtain ⟨upTo, gap, rest, -, htiles, -⟩ := lex_exact text
  exact htiles.lines.2

theorem one_le_line (text : String) {t : Token} (ht : t ∈ (lex text).tokens) : 1 ≤ t.line := by
  obtain ⟨upTo, gap, rest, -, htiles, -⟩ := lex_exact text
  exact htiles.lines.1 t ht

/-- Where some tokens stand: on the lines from the first of them to the last. -/
def place (ts : List Token) : Pos :=
  ⟨[], (ts.head?.map (·.line)).getD 0, (ts.getLast?.map (·.line)).getD 0⟩

section
variable {ts us : List Token}

theorem place_first_le (h : Ascending ts) {t : Token} (ht : t ∈ ts) :
    (place ts).first ≤ t.line := by
  cases ts with
  | nil => cases ht
  | cons a ts =>
    obtain rfl | ht := List.mem_cons.1 ht
    · exact le_refl t.line
    · exact (List.pairwise_cons.1 h).1 t ht

theorem le_place_last (h : Ascending ts) {t : Token} (ht : t ∈ ts) : t.line ≤ (place ts).last := by
  obtain rfl | ⟨as, a, rfl⟩ := List.eq_nil_or_concat ts
  · cases ht
  · rw [List.concat_eq_append] at h ht ⊢
    have hlast : (place (as ++ [a])).last = a.line := by simp [place]
    rw [hlast]
    obtain ht | ht := List.mem_append.1 ht
    · exact (List.pairwise_append.1 h).2.2 t ht a (by simp)
    · rw [List.mem_singleton.1 ht]

theorem one_le_place (hne : ts ≠ []) (h : ∀ t ∈ ts, 1 ≤ t.line) : 1 ≤ (place ts).first := by
  obtain ⟨a, as, rfl⟩ := List.exists_cons_of_ne_nil hne
  exact h a (by simp)

/-- Tokens among others stand on lines among theirs. -/
theorem place_within (h : Ascending ts) (hne : us ≠ []) (hi : us <:+: ts) :
    (place ts).first ≤ (place us).first ∧ (place us).first ≤ (place us).last ∧
      (place us).last ≤ (place ts).last := by
  obtain ⟨a, as, ha⟩ := List.exists_cons_of_ne_nil hne
  obtain ⟨bs, b, hb⟩ := (List.eq_nil_or_concat us).resolve_left hne
  have hfirst : (place us).first = a.line := by simp [place, ha]
  have hlast : (place us).last = b.line := by simp [place, hb]
  have ha' : a ∈ us := by simp [ha]
  have hb' : b ∈ us := by simp [hb]
  refine ⟨?_, ?_, ?_⟩
  · rw [hfirst]
    exact place_first_le h (hi.subset ha')
  · rw [hlast]
    exact place_first_le (h.sublist hi.sublist) hb'
  · rw [hlast]
    exact le_place_last h (hi.subset hb')

end

namespace Grammar

namespace Tree

variable {t u : Tree} {ts : List Tree}

/-! ## Parts of trees -/

theorem Sub.ok (h : t.Sub u) (hok : t.Ok) : u.Ok := by
  induction h with
  | self => exact hok
  | child _ hv ih =>
    cases ih with
    | leaf => cases hv
    | node _ _ h => exact h _ hv

theorem infix_tokensOf (h : t ∈ ts) : t.tokens <:+: tokensOf ts := by
  obtain ⟨us, vs, rfl⟩ := List.append_of_mem h
  exact ⟨tokensOf us, tokensOf vs, by simp⟩

theorem Sub.tokens (h : t.Sub u) : u.tokens <:+: t.tokens := by
  induction h with
  | self => exact List.infix_refl _
  | @child u v _ hv ih =>
    cases u with
    | leaf => cases hv
    | node r ls ts => exact (infix_tokensOf hv).trans ih

theorem ne_nil_of_rhs {r : Rule} (hs : ts.map symbol = r.rhs) : ts ≠ [] := by
  rintro rfl
  cases r <;> cases hs

theorem Ok.parts {r : Rule} {ls : Lines} (h : (Tree.node r ls ts).Ok) :
    ts.map symbol = r.rhs ∧ ∀ t ∈ ts, t.Ok := by
  cases h with
  | node _ hs h => exact ⟨hs, h⟩

theorem Ok.tokens_ne_nil (h : t.Ok) : t.tokens ≠ [] := by
  induction h with
  | leaf => simp
  | @node r ls ts _ hs _ ih =>
    obtain ⟨t, ts, rfl⟩ := List.exists_cons_of_ne_nil (ne_nil_of_rhs hs)
    simpa using fun h => absurd h (ih t (by simp))

/-! ## Lines -/

/-- The lines of every rule are those of its first and last part. -/
inductive Lined : Tree → Prop where
  | leaf (t : Token) : Lined (leaf t)
  | apply {r : Rule} {ts : List Tree} (h : ∀ t ∈ ts, Lined t) : Lined (.apply r ts)

theorem Sub.lined (h : t.Sub u) (hl : t.Lined) : u.Lined := by
  induction h with
  | self => exact hl
  | child _ hv ih =>
    cases ih with
    | leaf => cases hv
    | apply h => exact h _ hv

theorem head?_tokensOf (h : t.tokens ≠ []) : (tokensOf (t :: ts)).head? = t.tokens.head? := by
  rw [tokensOf_cons, List.head?_append_of_ne_nil _ h]

theorem getLast?_tokensOf (h : t.tokens ≠ []) :
    (tokensOf (ts ++ [t])).getLast? = t.tokens.getLast? := by
  rw [tokensOf_append, tokensOf_cons, tokensOf_nil, List.append_nil,
    List.getLast?_append_of_ne_nil _ h]

theorem Lined.pos_lines (h : t.Lined) (hok : t.Ok) : t.lines.pos = place t.tokens := by
  induction h with
  | leaf => rfl
  | @apply r ts _ ih =>
    obtain ⟨hs, hparts⟩ := hok.parts
    have hne := ne_nil_of_rhs hs
    -- the first part gives the first line, and the last part the last
    obtain ⟨a, as, ha⟩ := List.exists_cons_of_ne_nil hne
    obtain ⟨bs, b, hb⟩ := List.eq_nil_or_concat ts |>.resolve_left hne
    have ha' : a ∈ ts := by simp [ha]
    have hb' : b ∈ ts := by simp [hb]
    have hfirst : a.lines.first = (place (tokensOf ts)).first := by
      rw [place, ha, head?_tokensOf (hparts a ha').tokens_ne_nil]
      exact congrArg Pos.first (ih a ha' (hparts a ha'))
    have hlast : b.lines.last = (place (tokensOf ts)).last := by
      rw [place, hb, List.concat_eq_append, getLast?_tokensOf (hparts b hb').tokens_ne_nil]
      exact congrArg Pos.last (ih b hb' (hparts b hb'))
    have hlines : linesOf ts = ⟨a.lines.first, b.lines.last⟩ := by
      have hh : ts.head? = some a := by simp [ha]
      have hg : ts.getLast? = some b := by simp [hb]
      simp only [linesOf, hh, hg]
    show (linesOf ts).pos = place (tokensOf ts)
    rw [hlines, Lines.pos, hfirst, hlast]
    rfl

/-- The tokens that a node made by the topmost rule stands on: those of the tree, except that the
    target of an assignment stands on its name alone. -/
def origin (u : Tree) (n : Expr) : List Token :=
  if u.symbol = .phrase .assignment ∧ n.isVar = true then u.tokens.take 1 else u.tokens

theorem origin_within (u : Tree) (n : Expr) : u.origin n <:+: u.tokens := by
  rw [origin]
  split
  · exact (List.take_prefix _ _).isInfix
  · exact List.infix_refl _

theorem origin_ne_nil (hok : u.Ok) (n : Expr) : u.origin n ≠ [] := by
  have hne := hok.tokens_ne_nil
  rw [origin]
  split
  · simpa using hne
  · exact hne

theorem not_stands_leaf (t : Token) (m : Expr) : ¬ (leaf t).Stands m := by
  intro h
  cases h with
  | _ h => cases h

/-- What a rule makes, and where that stands. -/
theorem Makes.origin {n : Expr} (h : u.Makes n) (hok : u.Ok) (hl : u.Lined) :
    n.pos = place (u.origin n) ∧ (n.assignsBare = true → .word .fun_ ∈ u.kinds) ∧
      ∀ p s, n = .number p s → ⟨.number, s⟩ ∈ u.tokens.map Token.piece := by
  obtain ⟨⟨m, hm, hn⟩, hnot⟩ := h
  cases u with
  | leaf t => exact absurd hm (not_stands_leaf t m)
  | node r ls ts =>
    have hpos := hl.pos_lines hok
    obtain hv | howns | ⟨rfl, t, us, rfl, rfl⟩ := (composed_of_stands hok.parts.1 hm).hasNode hn
    · obtain ⟨v, hv, hn⟩ := hv
      exact absurd hn (hnot v hv)
    · refine ⟨?_, howns.bare, howns.number⟩
      rw [Tree.origin, if_neg]
      · exact howns.pos.trans hpos
      · rintro ⟨hsym, hvar⟩
        have hr : r = .assignment := by
          cases r <;> first | rfl | cases hsym
        cases (howns.var hr).symm.trans hvar
    · refine ⟨?_, by simp [Expr.assignsBare], by simp⟩
      rw [Tree.origin, if_pos ⟨rfl, rfl⟩]
      rfl

end Tree

/-! ## Runs -/

theorem lined_of_run {t : Tree} {fuel : Nat} {m : Machine} (h : Linked m.stack)
    (hm : ∀ f ∈ m.stack, f.tree.Lined) (hrun : m.run fuel = .tree t) : t.Ok ∧ t.Lined := by
  induction fuel generalizing m with
  | zero => cases hrun
  | succ fuel ih =>
    rw [Machine.run] at hrun
    cases hstep : m.step with
    | halt o =>
      rw [hstep] at hrun
      obtain rfl : o = .tree t := hrun
      rcases Machine.of_halt hstep with ⟨f, hf, -, hstack⟩ | ho | ho | ⟨ho, -⟩ | ⟨c, ho, -⟩
      · cases hf
        rw [hstack] at h
        exact ⟨h.2.1, hm f (by simp [hstack])⟩
      all_goals cases ho
    | next m' =>
      rw [hstep] at hrun
      refine ih (h.next hstep).1 ?_ hrun
      have hrestart : ∀ f ∈ m.restart.stack, f.tree.Lined := fun f hf => by cases hf
      rcases Machine.of_step hstep with ⟨t, rest, s, -, -, rfl⟩ | ⟨r, hr, hne, hred⟩ | ⟨-, -, rfl⟩
      · exact List.forall_mem_cons.2 ⟨.leaf t, hm⟩
      · obtain ⟨f, hf, hg, -, -, -⟩ := h.reduced hr hne
        rcases Machine.of_reduce hred with ⟨-, rfl⟩ | ⟨hrefuse, -⟩
        · exact hrestart
        · cases hred.symm.trans (Machine.reduce_eq hf hg hrefuse)
          refine List.forall_mem_cons.2 ⟨?_, fun g hg => hm g (List.mem_of_mem_drop hg)⟩
          rw [hf]
          refine .apply fun u hu => ?_
          simp only [trees, List.mem_reverse, List.mem_map] at hu
          obtain ⟨g, hg, rfl⟩ := hu
          exact hm g (List.mem_of_mem_take hg)
      · exact hrestart

/-- The expression in a text was read off a tree of its tokens. -/
structure Derivation (text : String) (e : Expr) (t : Tree) : Prop where
  derive : derive (lex text) = .tree t
  expr : t.expr? = some e
  ok : t.Ok
  lined : t.Lined
  tokens : t.tokens <:+ (lex text).tokens

theorem exists_derivation {text : String} {e : Expr} (h : parse text = .ok (some e)) :
    ∃ t, Derivation text e t := by
  rw [parse_eq_read] at h
  cases ht : Grammar.derive (lex text) with
  | tree t =>
    rw [ht] at h
    have he : t.expr? = some e := Except.ok.inj h
    have hlinked : Linked (Machine.start (lex text)).stack := trivial
    obtain ⟨hok, hlined⟩ := lined_of_run hlinked (fun f hf => by cases hf) ht
    exact ⟨t, ht, he, hok, hlined, tokens_of_run hlinked (List.suffix_refl _) ht⟩
  | _ =>
    rw [ht] at h
    cases h

namespace Derivation

variable {text : String} {e : Expr} {t : Tree}

variable {n : Expr}

theorem makes (h : Derivation text e t) (hn : e.HasNode n) : ∃ u, t.Sub u ∧ u.Makes n :=
  Tree.exists_makes h.ok ⟨e, .expr h.expr, hn⟩

theorem origin (h : Derivation text e t) {u : Tree} (hu : t.Sub u) (hn : u.Makes n) :
    n.pos = place (u.origin n) :=
  (hn.origin (hu.ok h.ok) (hu.lined h.lined)).1

theorem among (h : Derivation text e t) {u : Tree} (hu : t.Sub u) :
    u.tokens <:+: (lex text).tokens :=
  hu.tokens.trans h.tokens.isInfix

theorem named (h : Derivation text e t) (hfun : .word .fun_ ∉ (lex text).tokens.map (·.kind)) :
    e.Named := by
  intro n hn
  obtain ⟨u, hu, hm⟩ := h.makes hn
  rw [← Bool.not_eq_true]
  intro hbare
  have hkind := (hm.origin (hu.ok h.ok) (hu.lined h.lined)).2.1 hbare
  exact hfun (((h.among hu).map _).subset hkind)

theorem number (h : Derivation text e t) {p : Pos} {s : String} (hn : e.HasNode (.number p s)) :
    ⟨.number, s⟩ ∈ (lex text).tokens.map Token.piece := by
  obtain ⟨u, hu, hm⟩ := h.makes hn
  have hpiece := (hm.origin (hu.ok h.ok) (hu.lined h.lined)).2.2 p s rfl
  exact ((h.among hu).map _).subset hpiece

theorem first_le_last (h : Derivation text e t) (hn : e.HasNode n) :
    1 ≤ n.pos.first ∧ n.pos.first ≤ n.pos.last := by
  obtain ⟨u, hu, hm⟩ := h.makes hn
  have hne := Tree.origin_ne_nil (hu.ok h.ok) n
  have hin := (Tree.origin_within u n).trans (h.among hu)
  rw [h.origin hu hm]
  exact ⟨one_le_place hne fun t ht => one_le_line text (hin.subset ht),
    (place_within (ascending_lex text) hne hin).2.1⟩

/-- The lines of a node lie within the lines of the nodes around it. -/
theorem nested (h : Derivation text e t) {x : Expr} (hn : e.HasNode n) (hx : n.HasNode x) :
    n.pos.first ≤ x.pos.first ∧ x.pos.last ≤ n.pos.last := by
  obtain hvar | hvar := Bool.eq_false_or_eq_true n.isVar
  · -- A variable is its only node.
    obtain rfl := hx.eq_of_isVar hvar
    exact ⟨le_rfl, le_rfl⟩
  · obtain ⟨u, hu, hm⟩ := h.makes hn
    have hux : u.Has x := by
      obtain ⟨⟨m, hm, hmn⟩, -⟩ := hm
      exact ⟨m, hm, hmn.trans hx⟩
    obtain ⟨v, hv, hx'⟩ := Tree.exists_makes (hu.ok h.ok) hux
    have hasc : Ascending u.tokens := (ascending_lex text).sublist (h.among hu).sublist
    obtain ⟨hfirst, -, hlast⟩ := place_within hasc
      (Tree.origin_ne_nil ((hu.trans hv).ok h.ok) x) ((Tree.origin_within v x).trans hv.tokens)
    rw [h.origin hu hm, h.origin (hu.trans hv) hx', Tree.origin, if_neg (by simp [hvar])]
    exact ⟨hfirst, hlast⟩

theorem parseFile_eq (h : Derivation text e t)
    (hfun : .word .fun_ ∉ (lex text).tokens.map (·.kind)) (room : Nat) {files : Files}
    {path : String} (hread : files.read path = .ok text) : parseFile room files path =
      if e.FitsIn room then .ok (e.mapPos (Pos.within path)) else .error .tooDeep := by
  have hparse : parse text = .ok (some e) := by
    rw [parse_eq_read, h.derive, Outcome.read, h.expr]
  have hwithin := Expr.within_eq path room e (h.named hfun)
  simp only [parseFile, hread, bind, Except.bind, hparse, hwithin, Expr.marked]
  split <;> rfl

end Derivation

/-- **Positions are exact and nested.**  Every node of an expression that is read was made by a rule
    of its derivation, and stands on the lines of the tokens of that rule; the target of an
    assignment stands on the line of its name.  So the lines of a node lie within those of every
    node around it.  In a file, where no name is bare, each position is in the file once, if there
    is room for as many calls as nodes are nested; otherwise the file is not read. -/
theorem parse_positions {text : String} {e : Expr} (h : parse text = .ok (some e)) :
    ∃ t : Tree, derive (lex text) = .tree t ∧ t.expr? = some e ∧ t.Ok ∧
      t.tokens <:+ (lex text).tokens ∧
      (Plain ((lex text).tokens.map (·.kind)) → t.tokens = (lex text).tokens) ∧
      (∀ n, e.HasNode n → ∃ u, t.Sub u ∧ u.Makes n) ∧
      (∀ u n, t.Sub u → u.Makes n → n.pos = place (u.origin n)) ∧
      (∀ n, e.HasNode n → 1 ≤ n.pos.first ∧ n.pos.first ≤ n.pos.last ∧
        ∀ x, n.HasNode x → n.pos.first ≤ x.pos.first ∧ x.pos.last ≤ n.pos.last) ∧
      (.word .fun_ ∉ (lex text).tokens.map (·.kind) → ∀ (room : Nat) (files : Files)
        (path : String), files.read path = .ok text → parseFile room files path =
          if e.FitsIn room then .ok (e.mapPos (Pos.within path)) else .error .tooDeep) := by
  obtain ⟨t, ht⟩ := exists_derivation h
  refine ⟨t, ht.derive, ht.expr, ht.ok, ht.tokens, fun hp => ?_, fun n hn => ht.makes hn,
    fun u n hu hn => ht.origin hu hn, fun n hn => ?_, fun hfun room files path hread => ?_⟩
  · have hfits : (derive (lex text)).Fits (lex text) := Sound.run hp (.start _) (left_start _)
    rw [ht.derive] at hfits
    exact hfits.2.2.1
  · obtain ⟨hone, hle⟩ := ht.first_le_last hn
    exact ⟨hone, hle, fun x hx => ht.nested hn hx⟩
  · exact ht.parseFile_eq hfun room hread

/-- An assignment on two lines, as a text and in a file. -/
theorem parse_positions_two_lines :
    let e : Expr := .assign ⟨[], 1, 2⟩ (.var ⟨[], 1, 1⟩ "x") (.number ⟨[], 2, 2⟩ "1")
    parse "x =\n  1" = .ok (some e) ∧
      (∃ t, derive (lex "x =\n  1") = .tree t ∧ ∀ n, e.HasNode n → ∃ u, t.Sub u ∧ u.Makes n) ∧
      parseFile 2 [("f", "x =\n  1")] "f" = .ok (e.mapPos (Pos.within "f")) ∧
      parseFile 1 [("f", "x =\n  1")] "f" = .error .tooDeep := by
  intro e
  have hlex : lex "x =\n  1" = ⟨[⟨.ident, "x", 1, 0⟩, ⟨.mark .assign, "=", 1, 2⟩,
      ⟨.number, "1", 2, 6⟩], none, 2⟩ := lex_eq (by decide +kernel)
  have hparse : parse "x =\n  1" = .ok (some e) := by
    rw [parse_eq_read, hlex]
    cbv
  have hread : Files.read [("f", "x =\n  1")] "f" = .ok "x =\n  1" := by decide +kernel
  obtain ⟨t, ht, -, -, -, -, hmakes, -, -, hfile⟩ := parse_positions hparse
  have hfile := fun room => hfile (by rw [hlex]; decide) room _ "f" hread
  exact ⟨hparse, ⟨t, ht, hmakes⟩, hfile 2, hfile 1⟩

/-! ## A file that is too deep -/

def signed (n : Nat) : Operand := ⟨List.replicate n .minus, .number "1"⟩

/-- It nests one node for each sign, and the number. -/
theorem signed_not_fitsIn {n : Nat} {e : Expr} (h : e.unplaced = (signed n).expr) :
    ¬ e.FitsIn n := by
  induction n generalizing e with
  | zero => exact id
  | succ n ih =>
    have hexpr : (signed (n + 1)).expr = .unary .unknown .minus (signed n).expr := rfl
    rw [hexpr] at h
    cases e with
    | unary p op a =>
      obtain ⟨-, -, ha⟩ := Expr.unary.inj h
      exact fun hfits => ih ha (hfits a (List.mem_singleton_self a))
    | _ => simp [Expr.unplaced] at h

theorem mem_signed_pieces {n : Nat} {p : Piece} (h : p ∈ (signed n).pieces) :
    p = UnOp.minus.piece ∨ p = ⟨.number, "1"⟩ := by
  rcases List.mem_append.1 h with h | h
  · obtain ⟨op, hop, rfl⟩ := List.mem_map.1 h
    rw [List.eq_of_mem_replicate hop]
    exact .inl rfl
  · exact .inr (List.mem_singleton.1 h)

theorem read_single {text : String} (h : '\r' ∉ text.toList) :
    Files.read [("f", text)] "f" = .ok text := by
  have hstart : Files.names ⟨some 0, []⟩ "f" = false := by decide +kernel
  have hfile : Files.names ⟨some 0, [['f']]⟩ "f" = true := by decide +kernel
  have hentry : Files.entry [("f", text)] "f" =
      Files.walk [("f", text)] ⟨some 0, []⟩ [['f']] := by
    have hplace : ExprLang.Place.start "f" = ⟨some 0, []⟩ := by decide +kernel
    have hsteps : Text.splitAt '/' "f".toList = [['f']] := by decide +kernel
    rw [Files.entry, hplace, hsteps]
    exact if_neg (by decide)
  have hwalk : Files.walk [("f", text)] ⟨some 0, []⟩ [['f']] = .file text := by
    simp [Files.walk, Files.find, hstart, hfile, ExprLang.Place.step]
  rw [Files.read, hentry, hwalk]
  dsimp only
  rw [Text.unixLines_eq_self h, String.ofList_toList]
  rfl

/-- A file with more signs before a number than calls can be nested is not read, though its text
    is. -/
theorem deep_file_not_read : ∃ text e, parse text = .ok (some e) ∧
    .word .fun_ ∉ (lex text).tokens.map (·.kind) ∧ Files.read [("f", text)] "f" = .ok text ∧
    parseFile depthLimit [("f", text)] "f" = .error .tooDeep := by
  let x : Group := .operand (signed depthLimit)
  have hchain : chainPieces x.first x.links = (signed depthLimit).pieces := List.append_nil _
  have hpieces : ∀ p ∈ chainPieces x.first x.links, p = UnOp.minus.piece ∨ p = ⟨.number, "1"⟩ :=
    fun p hp => mem_signed_pieces (hchain ▸ hp)
  have hvalid : (chainPieces x.first x.links).all Piece.valid = true := by
    rw [List.all_eq_true]
    intro p hp
    rcases hpieces p hp with rfl | rfl <;> decide
  have hunix : '\r' ∉ spell (chainPieces x.first x.links) := by
    intro hmem
    rcases mem_spell hmem with hblank | ⟨p, hp, hmem⟩
    · cases hblank
    · rcases hpieces p hp with rfl | rfl <;> exact absurd hmem (by decide)
  have hw := lex_spell hvalid
  rw [← String.toList_ofList (l := spell _)] at hunix
  generalize String.ofList (spell (chainPieces x.first x.links)) = text at hw hunix
  obtain ⟨e, hparse, hread⟩ := parse_group (x := x) trivial hw
  have hfun : .word .fun_ ∉ (lex text).tokens.map (·.kind) := by
    intro hmem
    obtain ⟨t, ht, hkind⟩ := List.mem_map.1 hmem
    rcases hpieces t.piece (hw.2 ▸ List.mem_map_of_mem ht) with hp | hp
    · cases hkind.symm.trans (congrArg Piece.kind hp)
    · cases hkind.symm.trans (congrArg Piece.kind hp)
  have hfile := read_single hunix
  obtain ⟨t, ht⟩ := exists_derivation hparse
  refine ⟨text, e, hparse, hfun, hfile, ?_⟩
  rw [ht.parseFile_eq hfun depthLimit hfile, if_neg (signed_not_fitsIn hread)]

end Grammar

end ExprLang
