/-
  Reading what was printed.

  Wherever their tokens stand, the pieces of an expression are those of a tidy tree that means the
  expression (`Formed`).  A rule is formed from the parts that it consists of (`Forms.node`), each
  of which brings along the pieces it is printed with.

  * `formed`: all printable expressions are formed, by induction on the expression;
  * `parse_print`: so what is printed is read as the same expression, up to positions.
-/
import ExprLang.Source
import ExprLang.Proofs.Lexing
import ExprLang.Proofs.ParseTidy
import Mathlib.Data.List.Forall2
import Mathlib.Data.List.Induction

namespace ExprLang

namespace Grammar

open Grammar.Tree ExprLang.Expr

attribute [local simp] expr? pieces unplaced

/-! ## Parts -/

/-- Wherever their tokens stand, the pieces are those of a tidy tree. -/
def Forms (x : Symbol) (good : Tree → Prop) (ps : List Piece) : Prop :=
  ∀ ts : List Token, ts.map Token.piece = ps →
    ∃ t : Tree, t.Tidy ∧ t.symbol = x ∧ t.tokens = ts ∧ good t

/-- What a rule consists of: a symbol, its pieces, and what is known about its tree.  An expression
    stands in parentheses. -/
structure Part where
  symbol : Symbol
  pieces : List Piece
  good : Tree → Prop
  forms : Forms symbol good pieces
  paren : symbol = .phrase .expression → ∀ t, good t → t.isParen = true

/-- `k` holds of all trees that are good for the parts. -/
def ForParts : List Part → (List Tree → Prop) → Prop
  | [], k => k []
  | q :: qs, k => ∀ t, q.good t → ForParts qs fun ts => k (t :: ts)

theorem ForParts.apply {qs : List Part} {ts : List Tree} {k : List Tree → Prop}
    (h : ForParts qs k) (hts : List.Forall₂ (fun t (q : Part) => q.good t) ts qs) : k ts := by
  induction hts generalizing k with
  | nil => exact h
  | cons ht _ ih => exact ih (h _ ht)

theorem trees_of_parts : ∀ {qs : List Part} {ts : List Token},
    ts.map Token.piece = qs.flatMap Part.pieces →
    ∃ us : List Tree, (∀ u ∈ us, u.Tidy) ∧ us.map symbol = qs.map Part.symbol ∧ tokensOf us = ts ∧
      List.Forall₂ (fun t (q : Part) => q.good t) us qs ∧
      ∀ u ∈ us, u.symbol = .phrase .expression → u.isParen = true
  | [], ts, h => ⟨[], by simp, rfl, (List.map_eq_nil_iff.1 h).symm, .nil, by simp⟩
  | q :: qs, ts, h => by
    rw [List.flatMap_cons, List.map_eq_append_iff] at h
    obtain ⟨ts, ts', rfl, hts, hts'⟩ := h
    obtain ⟨t, htidy, hsym, rfl, hgood⟩ := q.forms ts hts
    obtain ⟨us, hus, hsyms, rfl, hgoods, hparens⟩ := trees_of_parts hts'
    refine ⟨t :: us, List.forall_mem_cons.2 ⟨htidy, hus⟩, ?_, rfl, .cons hgood hgoods,
      List.forall_mem_cons.2 ⟨fun hx => q.paren (hsym.symm.trans hx) t hgood, hparens⟩⟩
    rw [List.map_cons, List.map_cons, hsym, hsyms]

theorem Forms.node {r : Rule} {ps : List Piece} {good : Tree → Prop} (qs : List Part)
    (hr : (r == .start) = false) (hs : qs.map Part.symbol = r.rhs)
    (hps : ps = qs.flatMap Part.pieces)
    (h : ForParts qs fun ts => refusal? r ts = none ∧ good (.apply r ts)) :
    Forms (.phrase r.lhs) good ps := by
  intro ts hts
  obtain ⟨us, htidy, hsyms, rfl, hgoods, hparens⟩ := trees_of_parts (hts.trans hps)
  obtain ⟨hrefuse, hgood⟩ := h.apply hgoods
  exact ⟨.apply r us, .node (beq_eq_false_iff_ne.1 hr) (hsyms.trans hs) hrefuse
    (fun _ => hparens) htidy, rfl, rfl, hgood⟩

theorem forms_token (p : Piece) : Forms (.token p.kind) (fun t => t.text? = some p.text) [p] := by
  intro ts hts
  obtain ⟨t, rfl, rfl⟩ := List.map_eq_singleton_iff.1 hts
  exact ⟨leaf t, .leaf t, rfl, rfl, rfl⟩

namespace Part

@[simp] def token (p : Piece) : Part :=
  ⟨.token p.kind, [p], _, forms_token p, fun hx => Symbol.noConfusion hx⟩

@[simp] def phrase {a : Phrase} {good : Tree → Prop} {ps : List Piece}
    (h : Forms (.phrase a) good ps) (ha : (a == .expression) = false) : Part :=
  ⟨.phrase a, ps, good, h,
    fun hx => absurd (Symbol.phrase.inj hx) (beq_eq_false_iff_ne.1 ha)⟩

end Part

/-! ## Expressions in parentheses -/

/-- What is read from the tree agrees with `a` in all that `f` keeps. -/
def Yields {α β : Type} (read : Tree → Option α) (f : α → β) (a : α) (t : Tree) : Prop :=
  ∃ a', read t = some a' ∧ f a' = f a

/-- The pieces of the expression are those of a tidy tree that means it, up to positions. -/
def Formed (e : Expr) : Prop :=
  Forms (.phrase .expression) (Yields expr? unplaced e) e.pieces

theorem Formed.enclosed {e : Expr} (h : Formed e) :
    Forms (.phrase .expression) (fun t => t.isParen = true ∧ Yields expr? unplaced e t)
      (enclose e.pieces) := by
  intro ts hts
  rw [enclose, List.cons_append, List.map_eq_cons_iff] at hts
  obtain ⟨l, ts, rfl, hl, hts⟩ := hts
  obtain ⟨us, rs, rfl, hus, hrs⟩ := List.map_eq_append_iff.1 hts
  obtain ⟨r, rfl, hr⟩ := List.map_eq_singleton_iff.1 hrs
  obtain ⟨t, htidy, hsym, rfl, e', he, hmeans⟩ := h us hus
  have hl' : l.kind = .mark .lparen := congrArg Piece.kind hl
  have hr' : r.kind = .mark .rparen := congrArg Piece.kind hr
  refine ⟨.apply .paren [leaf l, t, leaf r], .node (by simp) ?_ rfl (fun hp => absurd rfl hp) ?_,
    rfl, ?_, rfl, e', ?_, hmeans⟩
  · simp [hl', hr', hsym, Rule.rhs]
  · simp [htidy, Tree.Tidy.leaf]
  · simp [Tree.apply]
  · rw [Tree.apply, expr?, he]

@[simp] def Part.enclosed {e : Expr} (h : Formed e) : Part :=
  ⟨.phrase .expression, enclose e.pieces, _, h.enclosed, fun _ _ ht => ht.1⟩

/-! ## Lists -/

theorem forms_names : ∀ {xs : List String}, xs ≠ [] →
    Forms (.phrase .names) (fun t => t.names? = some xs) (listNames xs)
  | [], h => absurd rfl h
  | [x], _ => by
    refine .node (r := .namesOne) [.token (.name x)] rfl rfl rfl ?_
    rintro t ht
    refine ⟨rfl, ?_⟩
    rw [Tree.apply, names?, ht]
    rfl
  | x :: y :: xs, _ => by
    have hlater := forms_names (List.cons_ne_nil y xs)
    refine .node (r := .namesMore) [.token (.name x), .token (.mark .comma), .phrase hlater rfl]
      rfl rfl (by simp [listNames]) ?_
    rintro t ht u - v hv
    refine ⟨rfl, ?_⟩
    rw [Tree.apply, names?, ht, hv]
    rfl

theorem forms_dots : ∀ n : Nat,
    Forms (.phrase .dots) (fun t => t.dots? = some n) (List.replicate (n + 1) (.mark .dot))
  | 0 => .node (r := .dotsOne) [.token (.mark .dot)] rfl rfl rfl fun _ _ => ⟨rfl, rfl⟩
  | n + 1 => by
    refine .node (r := .dotsMore) [.token (.mark .dot), .phrase (forms_dots n) rfl] rfl rfl
      (by simp [List.replicate_succ]) ?_
    rintro t - u hu
    refine ⟨rfl, ?_⟩
    rw [Tree.apply, dots?, hu, Option.map_some, Nat.add_comm]

theorem forms_arguments : ∀ {es : List Expr}, es ≠ [] → (∀ e ∈ es, Formed e) →
    Forms (.phrase .arguments) (Yields arguments? listUnplaced es) (listPieces .comma es)
  | [], h, _ => absurd rfl h
  | [a], _, h => by
    refine .node (r := .argumentsOne) [.enclosed (h a (by simp))] rfl rfl
      (by simp [listPieces]) ?_
    rintro t ⟨-, a', ha, hae⟩
    refine ⟨rfl, ?_⟩
    rw [Yields, Tree.apply, arguments?, ha]
    exact ⟨_, rfl, by simp [listUnplaced, hae]⟩
  | a :: b :: es, _, h => by
    have hlater := forms_arguments (List.cons_ne_nil b es) fun e he =>
      h e (List.mem_cons_of_mem a he)
    refine .node (r := .argumentsMore)
      [.enclosed (h a (by simp)), .token (.mark .comma), .phrase hlater rfl] rfl rfl
      (by simp [listPieces]) ?_
    rintro t ⟨-, a', ha, hae⟩ u - v ⟨es', hes, hese⟩
    refine ⟨rfl, ?_⟩
    rw [Yields, Tree.apply, arguments?, ha, hes]
    exact ⟨_, rfl, by simp [listUnplaced, hae, hese]⟩

theorem listPieces_concat (m : Mark) (a : Expr) : ∀ {es : List Expr}, es ≠ [] →
    listPieces m (es ++ [a]) = listPieces m es ++ .mark m :: enclose a.pieces
  | [], h => absurd rfl h
  | [b], _ => by simp [listPieces]
  | b :: c :: es, _ => by
    have hlater := listPieces_concat m a (List.cons_ne_nil c es)
    rw [List.cons_append] at hlater
    simp [listPieces, hlater]

theorem listUnplaced_append : ∀ es fs : List Expr,
    listUnplaced (es ++ fs) = listUnplaced es ++ listUnplaced fs
  | [], _ => rfl
  | e :: es, fs => congrArg (e.unplaced :: ·) (listUnplaced_append es fs)

theorem forms_sequence {es : List Expr} (hne : es ≠ []) (h : ∀ e ∈ es, Formed e) :
    Forms (.phrase .sequence) (Yields sequence? listUnplaced es) (listPieces .semicolon es) := by
  induction es using List.reverseRecOn with
  | nil => exact absurd rfl hne
  | append_singleton es a ih =>
    have ha : Formed a := h a (by simp)
    obtain rfl | hes := eq_or_ne es []
    · refine .node (r := .sequenceOne) [.enclosed ha] rfl rfl (by simp [listPieces]) ?_
      rintro t ⟨-, a', ha, hae⟩
      refine ⟨rfl, ?_⟩
      rw [Yields, Tree.apply, sequence?, ha]
      exact ⟨_, rfl, by simp [listUnplaced, hae]⟩
    · have hbefore := ih hes fun e he => h e (List.mem_append_left _ he)
      refine .node (r := .sequenceMore)
        [.phrase hbefore rfl, .token (.mark .semicolon), .enclosed ha] rfl rfl
        (by simp [listPieces_concat _ _ hes]) ?_
      rintro t ⟨es', hes, hese⟩ u - v ⟨-, a', ha, hae⟩
      refine ⟨rfl, ?_⟩
      rw [Yields, Tree.apply, sequence?, hes, ha]
      exact ⟨_, rfl, by simp [listUnplaced_append, listUnplaced, hese, hae]⟩

theorem forms_entry {k v : Expr} (hk : Formed k) (hv : Formed v) :
    Forms (.phrase .entry) (Yields entry? (fun e => (e.1.unplaced, e.2.unplaced)) (k, v))
      (enclose k.pieces ++ .mark .colon :: enclose v.pieces) := by
  refine .node (r := .entry) [.enclosed hk, .token (.mark .colon), .enclosed hv] rfl rfl
    (by simp) ?_
  rintro t ⟨-, k', hk, hke⟩ u - w ⟨-, v', hv, hve⟩
  refine ⟨rfl, ?_⟩
  rw [Yields, Tree.apply, entry?, hk, hv]
  exact ⟨_, rfl, by simp [hke, hve]⟩

theorem forms_entries : ∀ {es : List (Expr × Expr)}, es ≠ [] →
    (∀ e ∈ es, Formed e.1 ∧ Formed e.2) →
    Forms (.phrase .entries) (Yields entries? entriesUnplaced es) (entryPieces es)
  | [], h, _ => absurd rfl h
  | [(k, v)], _, h => by
    obtain ⟨hk, hv⟩ := h (k, v) (by simp)
    refine .node (r := .entriesOne) [.phrase (forms_entry hk hv) rfl] rfl rfl
      (by simp [entryPieces]) ?_
    rintro t ⟨e, he, hee⟩
    obtain ⟨hke, hve⟩ := Prod.mk.inj hee
    refine ⟨rfl, ?_⟩
    rw [Yields, Tree.apply, entries?, he]
    exact ⟨_, rfl, by simp [entriesUnplaced, hke, hve]⟩
  | (k, v) :: f :: es, _, h => by
    obtain ⟨hk, hv⟩ := h (k, v) (by simp)
    have hlater := forms_entries (List.cons_ne_nil f es) fun e he => h e (List.mem_cons_of_mem _ he)
    refine .node (r := .entriesMore)
      [.phrase (forms_entry hk hv) rfl, .token (.mark .comma), .phrase hlater rfl] rfl rfl
      (by simp [entryPieces]) ?_
    rintro t ⟨e, he, hee⟩ u - w ⟨es', hes, hese⟩
    obtain ⟨hke, hve⟩ := Prod.mk.inj hee
    refine ⟨rfl, ?_⟩
    rw [Yields, Tree.apply, entries?, he, hes]
    exact ⟨_, rfl, by simp [entriesUnplaced, hke, hve, hese]⟩

theorem forms_assignment (p q : Pos) (x : String) {a : Expr} (ha : Formed a) :
    Forms (.phrase .assignment)
      (Yields assignment? (fun b => (b.target.unplaced, b.value.unplaced)) ⟨p, .var q x, a⟩)
      (.name x :: .mark .assign :: enclose a.pieces) := by
  refine .node (r := .assignment) [.token (.name x), .token (.mark .assign), .enclosed ha] rfl rfl
    (by simp) ?_
  rintro t ht u - w ⟨-, a', ha, hae⟩
  refine ⟨rfl, ?_⟩
  rw [Yields, Tree.apply, assignment?, ht, ha]
  exact ⟨_, rfl, by simp [Target.unplaced, Piece.name, hae]⟩

theorem forms_bindings : ∀ {bs : List (Binding Expr)}, bs ≠ [] →
    (∀ b ∈ bs, (∃ p x, b.target = .var p x) ∧ Formed b.value) →
    Forms (.phrase .bindings) (Yields bindings? bindingsUnplaced bs) (bindingPieces bs)
  | [], h, _ => absurd rfl h
  | [⟨p, x, a⟩], _, h => by
    obtain ⟨⟨q, y, rfl⟩, ha⟩ := h _ (List.mem_singleton_self _)
    refine .node (r := .bindingsOne) [.phrase (forms_assignment p q y ha) rfl] rfl rfl
      (by simp [bindingPieces, Target.name]) ?_
    rintro t ⟨b, hb, hbe⟩
    obtain ⟨hxe, hae⟩ := Prod.mk.inj hbe
    refine ⟨rfl, ?_⟩
    rw [Yields, Tree.apply, bindings?, hb]
    exact ⟨_, rfl, by simp [bindingsUnplaced, hxe, hae]⟩
  | ⟨p, x, a⟩ :: c :: bs, _, h => by
    obtain ⟨⟨q, y, rfl⟩, ha⟩ := h _ (List.mem_cons_self ..)
    have hlater := forms_bindings (List.cons_ne_nil c bs) fun b hb =>
      h b (List.mem_cons_of_mem _ hb)
    refine .node (r := .bindingsMore)
      [.phrase (forms_assignment p q y ha) rfl, .token (.mark .comma), .phrase hlater rfl]
      rfl rfl (by simp [bindingPieces, Target.name]) ?_
    rintro t ⟨b, hb, hbe⟩ u - w ⟨bs', hbs, hbse⟩
    obtain ⟨hxe, hae⟩ := Prod.mk.inj hbe
    refine ⟨rfl, ?_⟩
    rw [Yields, Tree.apply, bindings?, hb, hbs]
    exact ⟨_, rfl, by simp [bindingsUnplaced, hxe, hae, hbse]⟩

theorem forms_dot : Forms (.phrase .dots) (fun t => ∃ ls ts, t = .node .dotsOne ls ts)
    [.mark .dot] :=
  .node (r := .dotsOne) [.token (.mark .dot)] rfl rfl rfl fun _ _ => ⟨rfl, _, _, rfl⟩

theorem forms_memberAssignment (p : Pos) (x : String) {a : Expr} (ha : Formed a) :
    Forms (.phrase .memberAssignment)
      (Yields memberAssignment? (fun f => (f.name, f.value.unplaced)) ⟨p, x, a⟩)
      (.mark .dot :: .name x :: .mark .assign :: enclose a.pieces) := by
  refine .node (r := .memberAssignment) [.phrase forms_dot rfl, .token (.name x),
    .token (.mark .assign), .enclosed ha] rfl rfl (by simp) ?_
  rintro t ⟨ls, ts, rfl⟩ u hu v - w ⟨-, a', ha, hae⟩
  refine ⟨rfl, ?_⟩
  rw [Yields, Tree.apply, memberAssignment?, hu, ha]
  exact ⟨_, rfl, by simp [Piece.name, hae]⟩

theorem forms_field (p : Pos) (x : String) {a : Expr} (ha : Formed a) :
    Forms (.phrase .field) (Yields field? fieldsUnplaced [⟨p, x, a⟩])
      (.mark .dot :: .name x :: .mark .assign :: enclose a.pieces) := by
  refine .node (r := .field) [.phrase (forms_memberAssignment p x ha) rfl] rfl rfl (by simp) ?_
  rintro t ⟨f, hf, hfe⟩
  obtain ⟨hxe, hae⟩ := Prod.mk.inj hfe
  refine ⟨rfl, ?_⟩
  rw [Yields, Tree.apply, field?, hf]
  exact ⟨_, rfl, by simp [fieldsUnplaced, hxe, hae]⟩

theorem fieldsUnplaced_append : ∀ fs gs : List (Field Expr),
    fieldsUnplaced (fs ++ gs) = fieldsUnplaced fs ++ fieldsUnplaced gs
  | [], _ => rfl
  | ⟨_, _, _⟩ :: fs, gs => by simp [fieldsUnplaced, fieldsUnplaced_append fs gs]

theorem forms_fields : ∀ {fs : List (Field Expr)}, fs ≠ [] → (∀ f ∈ fs, Formed f.value) →
    Forms (.phrase .fields) (Yields fields? fieldsUnplaced fs) (fieldPieces fs)
  | [], h, _ => absurd rfl h
  | [⟨p, x, a⟩], _, h => by
    have ha : Formed a := h _ (List.mem_singleton_self _)
    refine .node (r := .fieldsOne) [.phrase (forms_field p x ha) rfl] rfl rfl
      (by simp [fieldPieces]) ?_
    rintro t ⟨fs, hfs, hfse⟩
    refine ⟨rfl, ?_⟩
    rw [Yields, Tree.apply, fields?, hfs]
    exact ⟨_, rfl, hfse⟩
  | ⟨p, x, a⟩ :: g :: fs, _, h => by
    have ha : Formed a := h _ (List.mem_cons_self ..)
    have hlater := forms_fields (List.cons_ne_nil g fs) fun f hf => h f (List.mem_cons_of_mem _ hf)
    refine .node (r := .fieldsMore)
      [.phrase (forms_field p x ha) rfl, .token (.mark .semicolon), .phrase hlater rfl] rfl rfl
      (by simp [fieldPieces]) ?_
    rintro t ⟨f, hf, hfe⟩ u - w ⟨fs', hfs, hfse⟩
    refine ⟨rfl, ?_⟩
    rw [Yields, Tree.apply, fields?, hf, hfs]
    exact ⟨_, rfl, by rw [fieldsUnplaced_append, hfe, hfse]; rfl⟩

/-! ## Expressions -/

section

variable (p : Pos) {a b c : Expr}

theorem formed_number (s : String) : Formed (.number p s) := by
  refine .node (r := .number) [.token ⟨.number, s⟩] rfl rfl rfl ?_
  rintro t ht
  refine ⟨rfl, ?_⟩
  rw [Yields, Tree.apply, expr?, ht]
  exact ⟨_, rfl, rfl⟩

theorem formed_string (s : String) : Formed (.string p s) := by
  refine .node (r := .string) [.token ⟨.string, s⟩] rfl rfl rfl ?_
  rintro t ht
  refine ⟨rfl, ?_⟩
  rw [Yields, Tree.apply, expr?, ht]
  exact ⟨_, rfl, rfl⟩

theorem formed_char (s : String) : Formed (.char p s) := by
  refine .node (r := .char) [.token ⟨.char, s⟩] rfl rfl rfl ?_
  rintro t ht
  refine ⟨rfl, ?_⟩
  rw [Yields, Tree.apply, expr?, ht]
  exact ⟨_, rfl, rfl⟩

theorem formed_bool (v : Bool) : Formed (.bool p v) := by
  refine .node (r := .bool v) [.token (.word (if v then .true_ else .false_))] rfl rfl rfl ?_
  rintro t -
  refine ⟨rfl, ?_⟩
  rw [Yields, Tree.apply, expr?]
  exact ⟨_, rfl, rfl⟩

theorem formed_var (x : String) : Formed (.var p x) := by
  refine .node (r := .var) [.token (.name x)] rfl rfl rfl ?_
  rintro t ht
  refine ⟨rfl, ?_⟩
  rw [Yields, Tree.apply, expr?, ht]
  exact ⟨_, rfl, rfl⟩

theorem formed_this : Formed (.this p) := by
  refine .node (r := .this) [.token (.word .this)] rfl rfl rfl ?_
  rintro t -
  refine ⟨rfl, ?_⟩
  rw [Yields, Tree.apply, expr?]
  exact ⟨_, rfl, rfl⟩

theorem formed_trap : Formed (.trap p) := by
  refine .node (r := .trap) [.token (.word .trap)] rfl rfl rfl ?_
  rintro t -
  refine ⟨rfl, ?_⟩
  rw [Yields, Tree.apply, expr?]
  exact ⟨_, rfl, rfl⟩

theorem formed_importFile (path : String) : Formed (.importFile p path) := by
  refine .node (r := .importFile) [.token (.word .import_), .token ⟨.string, path⟩] rfl rfl rfl ?_
  rintro t - u hu
  refine ⟨rfl, ?_⟩
  rw [Yields, Tree.apply, expr?, hu]
  exact ⟨_, rfl, rfl⟩

theorem formed_unary (op : UnOp) (ha : Formed a) : Formed (.unary p op a) := by
  refine .node (r := .unary op) [.token op.piece, .enclosed ha] rfl rfl (by simp) ?_
  rintro t - u ⟨-, a', ha, hae⟩
  refine ⟨rfl, ?_⟩
  rw [Yields, Tree.apply, expr?, ha]
  exact ⟨_, rfl, by simp [hae]⟩

theorem formed_binary (op : BinOp) (ha : Formed a) (hb : Formed b) :
    Formed (.binary p op a b) := by
  refine .node (r := .binary op) [.enclosed ha, .token op.piece, .enclosed hb] rfl rfl
    (by simp) ?_
  rintro t ⟨-, a', ha, hae⟩ u - v ⟨-, b', hb, hbe⟩
  refine ⟨rfl, ?_⟩
  rw [Yields, Tree.apply, expr?, ha, hb]
  exact ⟨_, rfl, by simp [hae, hbe]⟩

theorem formed_index (ha : Formed a) (hb : Formed b) : Formed (.index p a b) := by
  refine .node (r := .index) [.enclosed ha, .token (.mark .lbracket), .enclosed hb,
    .token (.mark .rbracket)] rfl rfl (by simp) ?_
  rintro t ⟨-, a', ha, hae⟩ u - v ⟨-, b', hb, hbe⟩ w -
  refine ⟨rfl, ?_⟩
  rw [Yields, Tree.apply, expr?, ha, hb]
  exact ⟨_, rfl, by simp [hae, hbe]⟩

theorem formed_loop (ha : Formed a) (hb : Formed b) : Formed (.loop p a b) := by
  refine .node (r := .loop) [.token (.word .loop), .enclosed ha, .token (.word .do_),
    .enclosed hb] rfl rfl (by simp) ?_
  rintro t - u ⟨-, a', ha, hae⟩ v - w ⟨-, b', hb, hbe⟩
  refine ⟨rfl, ?_⟩
  rw [Yields, Tree.apply, expr?, ha, hb]
  exact ⟨_, rfl, by simp [hae, hbe]⟩

theorem formed_whileDo (ha : Formed a) (hb : Formed b) : Formed (.whileDo p a b) := by
  refine .node (r := .whileDo) [.token (.word .while_), .enclosed ha, .token (.word .do_),
    .enclosed hb] rfl rfl (by simp) ?_
  rintro t - u ⟨-, a', ha, hae⟩ v - w ⟨-, b', hb, hbe⟩
  refine ⟨rfl, ?_⟩
  rw [Yields, Tree.apply, expr?, ha, hb]
  exact ⟨_, rfl, by simp [hae, hbe]⟩

theorem formed_doWhile (ha : Formed a) (hb : Formed b) : Formed (.doWhile p a b) := by
  refine .node (r := .doWhile) [.token (.word .do_), .enclosed hb, .token (.word .while_),
    .enclosed ha] rfl rfl (by simp) ?_
  rintro t - u ⟨-, b', hb, hbe⟩ v - w ⟨-, a', ha, hae⟩
  refine ⟨rfl, ?_⟩
  rw [Yields, Tree.apply, expr?, ha, hb]
  exact ⟨_, rfl, by simp [hae, hbe]⟩

theorem formed_ifThen (ha : Formed a) (hb : Formed b) : Formed (.ifThen p a b none) := by
  refine .node (r := .ifThen) [.token (.word .if_), .enclosed ha, .token (.word .then_),
    .enclosed hb] rfl rfl (by simp [elsePieces]) ?_
  rintro t - u ⟨-, a', ha, hae⟩ v - w ⟨-, b', hb, hbe⟩
  refine ⟨rfl, ?_⟩
  rw [Yields, Tree.apply, expr?, ha, hb]
  exact ⟨_, rfl, by simp [optionUnplaced, hae, hbe]⟩

theorem formed_ifThenElse (ha : Formed a) (hb : Formed b) (hc : Formed c) :
    Formed (.ifThen p a b (some c)) := by
  refine .node (r := .ifThenElse) [.token (.word .if_), .enclosed ha, .token (.word .then_),
    .enclosed hb, .token (.word .else_), .enclosed hc] rfl rfl (by simp [elsePieces]) ?_
  rintro t - u ⟨-, a', ha, hae⟩ v - w ⟨-, b', hb, hbe⟩ x - y ⟨-, c', hc, hce⟩
  refine ⟨rfl, ?_⟩
  rw [Yields, Tree.apply, expr?, ha, hb, hc]
  exact ⟨_, rfl, by simp [optionUnplaced, hae, hbe, hce]⟩

theorem formed_assign (q : Pos) (x : String) (ha : Formed a) : Formed (.assign p (.var q x) a) := by
  refine .node (r := .ofAssignment) [.phrase (forms_assignment p q x ha) rfl] rfl rfl
    (by simp) ?_
  rintro t ⟨⟨q', y, a'⟩, hb, hbe⟩
  obtain ⟨hye, hae⟩ := Prod.mk.inj hbe
  refine ⟨rfl, ?_⟩
  rw [Yields, Tree.apply, expr?, hb]
  exact ⟨_, rfl, by simp [hye, hae]⟩

theorem formed_memberAssign (x : String) (ha : Formed a) : Formed (.memberAssign p x a) := by
  refine .node (r := .ofMemberAssignment) [.phrase (forms_memberAssignment p x ha) rfl] rfl rfl
    (by simp) ?_
  rintro t ⟨⟨q, y, a'⟩, hf, hfe⟩
  obtain ⟨rfl, hae⟩ := Prod.mk.inj hfe
  refine ⟨rfl, ?_⟩
  rw [Yields, Tree.apply, expr?, hf]
  exact ⟨_, rfl, by simp [hae]⟩

theorem formed_member (x : String) (up : Nat) (ha : Formed a) : Formed (.member p a x up) := by
  refine .node (r := .member) [.enclosed ha, .phrase (forms_dots up) rfl, .token (.name x)]
    rfl rfl (by simp) ?_
  rintro t ⟨-, a', ha, hae⟩ u hu v hv
  refine ⟨rfl, ?_⟩
  rw [Yields, Tree.apply, expr?, ha, hu, hv]
  exact ⟨_, rfl, by simp [Piece.name, hae]⟩

theorem formed_lock {xs : List String} (hxs : xs ≠ []) (ha : Formed a) : Formed (.lock p xs a) := by
  refine .node (r := .lock) [.token (.word .lock), .phrase (forms_names hxs) rfl,
    .token (.word .in_), .enclosed ha] rfl rfl (by simp) ?_
  rintro t - u hu v - w ⟨-, a', ha, hae⟩
  refine ⟨rfl, ?_⟩
  rw [Yields, Tree.apply, expr?, hu, ha]
  exact ⟨_, rfl, by simp [hae]⟩

theorem formed_letIn {bs : List (Binding Expr)} (hne : bs ≠ [])
    (hbs : ∀ b ∈ bs, (∃ p x, b.target = .var p x) ∧ Formed b.value) (ha : Formed a) :
    Formed (.letIn p bs a) := by
  refine .node (r := .letIn) [.token (.word .local_), .phrase (forms_bindings hne hbs) rfl,
    .token (.word .in_), .enclosed ha] rfl rfl (by simp) ?_
  rintro t - u ⟨bs', hbs, hbse⟩ v - w ⟨-, a', ha, hae⟩
  refine ⟨rfl, ?_⟩
  rw [Yields, Tree.apply, expr?, hbs, ha]
  exact ⟨_, rfl, by simp [hbse, hae]⟩

theorem formed_block {es : List Expr} (hne : es ≠ []) (hes : ∀ e ∈ es, Formed e) :
    Formed (.sequence p es) := by
  refine .node (r := .block) [.token (.mark .lbrace), .phrase (forms_sequence hne hes) rfl,
    .token (.mark .rbrace)] rfl rfl (by simp) ?_
  rintro t - u ⟨es', hes, hese⟩ v -
  refine ⟨rfl, ?_⟩
  rw [Yields, Tree.apply, expr?, hes]
  exact ⟨_, rfl, by simp [hese]⟩

theorem formed_array {es : List Expr} (hes : ∀ e ∈ es, Formed e) : Formed (.array p es) := by
  obtain rfl | hne := eq_or_ne es []
  · refine .node (r := .arrayEmpty) [.token (.mark .lbracket), .token (.mark .rbracket)] rfl rfl
      (by simp [listPieces]) ?_
    rintro t - u -
    refine ⟨rfl, ?_⟩
    rw [Yields, Tree.apply, expr?]
    exact ⟨_, rfl, rfl⟩
  · refine .node (r := .array) [.token (.mark .lbracket), .phrase (forms_arguments hne hes) rfl,
      .token (.mark .rbracket)] rfl rfl (by simp) ?_
    rintro t - u ⟨es', hes, hese⟩ v -
    refine ⟨rfl, ?_⟩
    rw [Yields, Tree.apply, expr?, hes]
    exact ⟨_, rfl, by simp [hese]⟩

theorem formed_dict {es : List (Expr × Expr)} (hes : ∀ e ∈ es, Formed e.1 ∧ Formed e.2) :
    Formed (.dict p es) := by
  obtain rfl | hne := eq_or_ne es []
  · refine .node (r := .dictEmpty) [.token (.mark .lbrace), .token (.mark .rbrace)] rfl rfl
      (by simp [entryPieces]) ?_
    rintro t - u -
    refine ⟨rfl, ?_⟩
    rw [Yields, Tree.apply, expr?]
    exact ⟨_, rfl, rfl⟩
  · refine .node (r := .dict) [.token (.mark .lbrace), .phrase (forms_entries hne hes) rfl,
      .token (.mark .rbrace)] rfl rfl (by simp) ?_
    rintro t - u ⟨es', hes, hese⟩ v -
    refine ⟨rfl, ?_⟩
    rw [Yields, Tree.apply, expr?, hes]
    exact ⟨_, rfl, by simp [hese]⟩

theorem formed_call {es : List Expr} (ha : Formed a) (hes : ∀ e ∈ es, Formed e) :
    Formed (.call p a es) := by
  obtain rfl | hne := eq_or_ne es []
  · refine .node (r := .callNone) [.enclosed ha, .token (.mark .lparen), .token (.mark .rparen)]
      rfl rfl (by simp [listPieces]) ?_
    rintro t ⟨-, a', ha, hae⟩ u - v -
    refine ⟨rfl, ?_⟩
    rw [Yields, Tree.apply, expr?, ha]
    exact ⟨_, rfl, by simp [hae]⟩
  · refine .node (r := .call) [.enclosed ha, .token (.mark .lparen),
      .phrase (forms_arguments hne hes) rfl, .token (.mark .rparen)] rfl rfl (by simp) ?_
    rintro t ⟨-, a', ha, hae⟩ u - v ⟨es', hes, hese⟩ w -
    refine ⟨rfl, ?_⟩
    rw [Yields, Tree.apply, expr?, ha, hes]
    exact ⟨_, rfl, by simp [hae, hese]⟩

theorem formed_struct {fs : List (Field Expr)} (hfs : ∀ f ∈ fs, Formed f.value) :
    Formed (.struct p fs none) := by
  obtain rfl | hne := eq_or_ne fs []
  · refine .node (r := .structEmpty) [.token (.word .struct), .token (.mark .lbrace),
      .token (.mark .rbrace)] rfl rfl (by simp [parentPieces, fieldPieces]) ?_
    rintro t - u - v -
    refine ⟨rfl, ?_⟩
    rw [Yields, Tree.apply, expr?]
    exact ⟨_, rfl, rfl⟩
  · refine .node (r := .struct) [.token (.word .struct), .token (.mark .lbrace),
      .phrase (forms_fields hne hfs) rfl, .token (.mark .rbrace)] rfl rfl
      (by simp [parentPieces]) ?_
    rintro t - u - v ⟨fs', hfs, hfse⟩ w -
    refine ⟨rfl, ?_⟩
    rw [Yields, Tree.apply, expr?, hfs]
    exact ⟨_, rfl, by simp [hfse]⟩

theorem formed_extend {fs : List (Field Expr)} (ha : Formed a) (hfs : ∀ f ∈ fs, Formed f.value) :
    Formed (.struct p fs (some a)) := by
  obtain rfl | hne := eq_or_ne fs []
  · refine .node (r := .extendEmpty) [.token (.word .extend), .enclosed ha, .token (.mark .lbrace),
      .token (.mark .rbrace)] rfl rfl (by simp [parentPieces, fieldPieces]) ?_
    rintro t - u ⟨-, a', ha, hae⟩ v - w -
    refine ⟨rfl, ?_⟩
    rw [Yields, Tree.apply, expr?, ha]
    exact ⟨_, rfl, by simp [optionUnplaced, hae]⟩
  · refine .node (r := .extend) [.token (.word .extend), .enclosed ha, .token (.mark .lbrace),
      .phrase (forms_fields hne hfs) rfl, .token (.mark .rbrace)] rfl rfl
      (by simp [parentPieces]) ?_
    rintro t - u ⟨-, a', ha, hae⟩ v - w ⟨fs', hfs, hfse⟩ x -
    refine ⟨rfl, ?_⟩
    rw [Yields, Tree.apply, expr?, ha, hfs]
    exact ⟨_, rfl, by simp [optionUnplaced, hfse, hae]⟩

theorem formed_lambda {xs : List String} {rest : Bool} (hxs : rest = true → xs ≠ [])
    (ha : Formed a) : Formed (.lambda p xs a rest) := by
  cases rest with
  | true =>
    refine .node (r := .lambdaRest) [.token (.mark .backslash), .phrase (forms_names (hxs rfl)) rfl,
      .token (.mark .dot), .token (.mark .dot), .token (.mark .dot), .token (.mark .arrow),
      .enclosed ha] rfl rfl (by simp [listParams, List.replicate_succ]) ?_
    rintro t - u hu v - w - x - y - z ⟨-, a', ha, hae⟩
    refine ⟨rfl, ?_⟩
    rw [Yields, Tree.apply, expr?, hu, ha]
    exact ⟨_, rfl, by simp [hae]⟩
  | false =>
    obtain rfl | hne := eq_or_ne xs []
    · refine .node (r := .lambdaNone) [.token (.mark .backslash), .token (.mark .arrow),
        .enclosed ha] rfl rfl (by simp [listParams, listNames]) ?_
      rintro t - u - v ⟨-, a', ha, hae⟩
      refine ⟨rfl, ?_⟩
      rw [Yields, Tree.apply, expr?, ha]
      exact ⟨_, rfl, by simp [hae]⟩
    · refine .node (r := .lambda) [.token (.mark .backslash), .phrase (forms_names hne) rfl,
        .token (.mark .arrow), .enclosed ha] rfl rfl (by simp [listParams]) ?_
      rintro t - u hu v - w ⟨-, a', ha, hae⟩
      refine ⟨rfl, ?_⟩
      rw [Yields, Tree.apply, expr?, hu, ha]
      exact ⟨_, rfl, by simp [hae]⟩

theorem formed_function (p₁ p₂ p₃ p₄ : Pos) (f : String) {xs : List String} {rest : Bool}
    (hxs : rest = true → xs ≠ []) (ha : Formed a) :
    Formed (.assign p (.bare f)
      (.letIn p₁ [⟨p₂, .bare f, .lambda p₃ xs a rest⟩] (.var p₄ f))) := by
  have hplace : ∀ q a', a'.unplaced = a.unplaced → (functionExpr q f xs a' rest).unplaced =
      (Expr.assign p (.bare f)
        (.letIn p₁ [⟨p₂, .bare f, .lambda p₃ xs a rest⟩] (.var p₄ f))).unplaced := by
    intro q a' h
    simp [functionExpr, bindingsUnplaced, h]
  cases rest with
  | true =>
    refine .node (r := .functionRest) [.token (.word .fun_), .token (.name f),
      .phrase (forms_names (hxs rfl)) rfl, .token (.mark .dot), .token (.mark .dot),
      .token (.mark .dot), .token (.mark .arrow), .enclosed ha] rfl rfl
      (by simp [listParams, List.replicate_succ]) ?_
    rintro t - f hf u hu v - w - x - y - z ⟨-, a', ha, hae⟩
    refine ⟨rfl, ?_⟩
    rw [Yields, Tree.apply, expr?, hf, hu, ha]
    exact ⟨_, rfl, hplace _ a' hae⟩
  | false =>
    obtain rfl | hne := eq_or_ne xs []
    · refine .node (r := .functionNone) [.token (.word .fun_), .token (.name f),
        .token (.mark .arrow), .enclosed ha] rfl rfl (by simp [listParams, listNames]) ?_
      rintro t - f hf u - v ⟨-, a', ha, hae⟩
      refine ⟨rfl, ?_⟩
      rw [Yields, Tree.apply, expr?, hf, ha]
      exact ⟨_, rfl, hplace _ a' hae⟩
    · refine .node (r := .function) [.token (.word .fun_), .token (.name f),
        .phrase (forms_names hne) rfl, .token (.mark .arrow), .enclosed ha] rfl rfl
        (by simp [listParams]) ?_
      rintro t - f hf u hu v - w ⟨-, a', ha, hae⟩
      refine ⟨rfl, ?_⟩
      rw [Yields, Tree.apply, expr?, hf, hu, ha]
      exact ⟨_, rfl, hplace _ a' hae⟩

theorem formed_proc (xs ys : List String) (ha : Formed a) : Formed (.proc p xs ys a) := by
  obtain rfl | hxs := eq_or_ne xs []
  · obtain rfl | hys := eq_or_ne ys []
    · refine .node (r := .procNone) [.token (.word .proc), .token (.mark .lparen),
        .token (.mark .rparen), .token (.mark .arrow), .enclosed ha] rfl rfl
        (by simp [listNames]) ?_
      rintro t - u - v - w - x ⟨-, a', ha, hae⟩
      refine ⟨rfl, ?_⟩
      rw [Yields, Tree.apply, expr?, ha]
      exact ⟨_, rfl, by simp [hae]⟩
    · refine .node (r := .procLocals) [.token (.word .proc), .token (.mark .lparen),
        .token (.mark .rparen), .phrase (forms_names hys) rfl, .token (.mark .arrow),
        .enclosed ha] rfl rfl (by simp [listNames]) ?_
      rintro t - u - v - w hw x - y ⟨-, a', ha, hae⟩
      refine ⟨rfl, ?_⟩
      rw [Yields, Tree.apply, expr?, hw, ha]
      exact ⟨_, rfl, by simp [hae]⟩
  · obtain rfl | hys := eq_or_ne ys []
    · refine .node (r := .procParams) [.token (.word .proc), .token (.mark .lparen),
        .phrase (forms_names hxs) rfl, .token (.mark .rparen), .token (.mark .arrow),
        .enclosed ha] rfl rfl (by simp [listNames]) ?_
      rintro t - u - v hv w - x - y ⟨-, a', ha, hae⟩
      refine ⟨rfl, ?_⟩
      rw [Yields, Tree.apply, expr?, hv, ha]
      exact ⟨_, rfl, by simp [hae]⟩
    · refine .node (r := .proc) [.token (.word .proc), .token (.mark .lparen),
        .phrase (forms_names hxs) rfl, .token (.mark .rparen), .phrase (forms_names hys) rfl,
        .token (.mark .arrow), .enclosed ha] rfl rfl (by simp) ?_
      rintro t - u - v hv w - x hx y - z ⟨-, a', ha, hae⟩
      refine ⟨rfl, ?_⟩
      rw [Yields, Tree.apply, expr?, hv, hx, ha]
      exact ⟨_, rfl, by simp [hae]⟩

end

/-! ## All printable expressions -/

mutual

/-- **The pieces of a printable expression are those of a tidy tree that means it.** -/
theorem formed : ∀ {e : Expr}, e.printable = true → Formed e
  | .number p s, _ => formed_number p s
  | .bool p v, _ => formed_bool p v
  | .string p s, _ => formed_string p s
  | .char p s, _ => formed_char p s
  | .array p _, h => formed_array p (formed_list h)
  | .dict p _, h => formed_dict p (formed_entries h)
  | .unary p op _, h => formed_unary p op (formed h)
  | .binary p op _ _, h => by
    rw [printable, Bool.and_eq_true] at h
    exact formed_binary p op (formed h.1) (formed h.2)
  | .index p _ _, h => by
    rw [printable, Bool.and_eq_true] at h
    exact formed_index p (formed h.1) (formed h.2)
  | .assign p (.var q x) _, h => by
    rw [printable, Bool.and_eq_true] at h
    exact formed_assign p q x (formed h.2)
  | .assign p (.bare f) (.letIn p₁ [⟨p₂, .bare g, .lambda p₃ xs a rest⟩] (.var p₄ k)), h => by
    simp only [printable, Bool.and_eq_true, beq_iff_eq] at h
    obtain ⟨⟨⟨⟨⟨rfl, rfl⟩, -⟩, -⟩, hxs⟩, ha⟩ := h
    exact formed_function p p₁ p₂ p₃ p₄ f (by rintro rfl; simpa using hxs) (formed ha)
  | .var p x, _ => formed_var p x
  | .lock p xs _, h => by
    simp only [printable, Bool.and_eq_true] at h
    exact formed_lock p (by simpa using h.1.2) (formed h.2)
  | .letIn p bs _, h => by
    simp only [printable, Bool.and_eq_true] at h
    exact formed_letIn p (by simpa using h.1.2) (formed_bindings h.1.1) (formed h.2)
  | .sequence p es, h => by
    rw [printable, Bool.and_eq_true] at h
    exact formed_block p (by simpa using h.2) (formed_list h.1)
  | .loop p _ _, h => by
    rw [printable, Bool.and_eq_true] at h
    exact formed_loop p (formed h.1) (formed h.2)
  | .whileDo p _ _, h => by
    rw [printable, Bool.and_eq_true] at h
    exact formed_whileDo p (formed h.1) (formed h.2)
  | .doWhile p _ _, h => by
    rw [printable, Bool.and_eq_true] at h
    exact formed_doWhile p (formed h.1) (formed h.2)
  | .ifThen p _ _ none, h => by
    simp only [printable, Bool.and_eq_true] at h
    exact formed_ifThen p (formed h.1.1) (formed h.1.2)
  | .ifThen p _ _ (some _), h => by
    simp only [printable, Bool.and_eq_true] at h
    exact formed_ifThenElse p (formed h.1.1) (formed h.1.2) (formed h.2)
  | .lambda p xs _ rest, h => by
    simp only [printable, Bool.and_eq_true] at h
    exact formed_lambda p (by rintro rfl; simpa using h.1.2) (formed h.2)
  | .proc p xs ys _, h => by
    rw [printable, Bool.and_eq_true] at h
    exact formed_proc p xs ys (formed h.2)
  | .call p _ _, h => by
    rw [printable, Bool.and_eq_true] at h
    exact formed_call p (formed h.1) (formed_list h.2)
  | .struct p _ none, h => by
    rw [printable, Bool.and_eq_true] at h
    exact formed_struct p (formed_fields h.1)
  | .struct p _ (some _), h => by
    rw [printable, Bool.and_eq_true] at h
    exact formed_extend p (formed h.2) (formed_fields h.1)
  | .member p _ x up, h => by
    rw [printable, Bool.and_eq_true] at h
    exact formed_member p x up (formed h.2)
  | .memberAssign p x _, h => by
    rw [printable, Bool.and_eq_true] at h
    exact formed_memberAssign p x (formed h.2)
  | .this p, _ => formed_this p
  | .importFile p path, _ => formed_importFile p path
  | .trap p, _ => formed_trap p

theorem formed_list : ∀ {es : List Expr}, listPrintable es = true → ∀ e ∈ es, Formed e
  | [], _ => List.forall_mem_nil _
  | _ :: _, h => by
    rw [listPrintable, Bool.and_eq_true] at h
    exact List.forall_mem_cons.2 ⟨formed h.1, formed_list h.2⟩

theorem formed_entries : ∀ {es : List (Expr × Expr)}, entriesPrintable es = true →
    ∀ e ∈ es, Formed e.1 ∧ Formed e.2
  | [], _ => List.forall_mem_nil _
  | (_, _) :: _, h => by
    simp only [entriesPrintable, Bool.and_eq_true] at h
    exact List.forall_mem_cons.2 ⟨⟨formed h.1.1, formed h.1.2⟩, formed_entries h.2⟩

theorem formed_bindings : ∀ {bs : List (Binding Expr)}, bindingsPrintable bs = true →
    ∀ b ∈ bs, (∃ p x, b.target = .var p x) ∧ Formed b.value
  | [], _ => List.forall_mem_nil _
  | ⟨_, .var q x, _⟩ :: _, h => by
    simp only [bindingsPrintable, Bool.and_eq_true] at h
    exact List.forall_mem_cons.2 ⟨⟨⟨q, x, rfl⟩, formed h.1.2⟩, formed_bindings h.2⟩

theorem formed_fields : ∀ {fs : List (Field Expr)}, fieldsPrintable fs = true →
    ∀ f ∈ fs, Formed f.value
  | [], _ => List.forall_mem_nil _
  | ⟨_, _, _⟩ :: _, h => by
    simp only [fieldsPrintable, Bool.and_eq_true] at h
    exact List.forall_mem_cons.2 ⟨formed h.1.2, formed_fields h.2⟩

end

end Grammar

open Grammar

/-- **Parsing undoes printing.**  A printable expression that is printed with all its parts in
    parentheses is read as the same expression, up to positions. -/
theorem parse_print (e : Expr) (h : e.printable = true) :
    ∃ e', parse e.print = .ok (some e') ∧ e'.unplaced = e.unplaced := by
  obtain ⟨hillegal, hpieces⟩ := lex_spell (Expr.valid_pieces h)
  obtain ⟨t, htidy, hsym, htokens, e', he, hsame⟩ := formed h _ hpieces
  refine ⟨e', ?_, hsame⟩
  rw [parse, Expr.print, derive_of_tidy htidy hsym htokens.symm hillegal]
  exact congrArg Except.ok he

/-- An expression with a rest parameter, a string that looks like a comment, a quote between quotes,
    three dots before a member, a struct with a parent, and a function. -/
def specimen : Expr :=
  let p := Pos.unknown
  .letIn p [⟨p, .var p "f", .lambda p ["x", "y"] (.index p (.var p "y") (.number p ".5")) true⟩]
    (.sequence p [.string p "# no -> comment", .char p "'", .member p (.this p) "m" 2,
      .struct p [⟨p, "a", .dict p [(.bool p true, .array p [])]⟩] (some (.var p "f")),
      .assign p (.bare "g") (.letIn p [⟨p, .bare "g", .lambda p [] (.number p "1.") false⟩]
        (.var p "g"))])

theorem parse_print_specimen : specimen.printable = true ∧
    ∃ e', parse specimen.print = .ok (some e') ∧ e'.unplaced = specimen.unplaced :=
  ⟨by decide, parse_print specimen (by decide)⟩

example : (Expr.ifThen .unknown (.binary .unknown .lt (.var .unknown "x") (.number .unknown "1"))
    (.assign .unknown (.var .unknown "y") (.unary .unknown .minus (.var .unknown "x"))) none).print
    = "IF ( ( x ) < ( 1 ) ) THEN ( y = ( - ( x ) ) )" := by decide

end ExprLang
