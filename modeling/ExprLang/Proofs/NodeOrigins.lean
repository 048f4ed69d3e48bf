/-
  Which rule made a node.

  A tree of the grammar stands for some nodes (`Tree.Stands`): an expression, or the expressions,
  bindings or initialisers of a list.  Each is made by the topmost rule of the tree, or one of the
  parts of the tree stands for it.

  * `Composed r ls ts m`: the node `m` is one of those that the parts `ts` stand for, or the rule
    `r` makes it over such nodes, and `composed_of_stands`: a tree stands for nothing else;
  * `Tree.Makes u n`: the topmost rule of `u` made the node `n`, and `exists_makes`: every node was
    made by some rule.
-/
import ExprLang.Proofs.ParseTrees
import ExprLang.Proofs.Printing
import ExprLang.Proofs.SyntaxNodes

namespace ExprLang

namespace Grammar

namespace Tree

/-! ## What a tree stands for -/

/-- The nodes that a tree stands for: a single one, or those that are listed. -/
inductive Stands (t : Tree) : Expr → Prop where
  | expr {y : Expr} (h : t.expr? = some y) : Stands t y
  | assignment {b : Binding Expr} (h : t.assignment? = some b) : Stands t b.node
  | memberAssignment {f : Field Expr} (h : t.memberAssignment? = some f) : Stands t f.node
  | sequence {es : List Expr} {y : Expr} (h : t.sequence? = some es) (hy : y ∈ es) : Stands t y
  | arguments {es : List Expr} {y : Expr} (h : t.arguments? = some es) (hy : y ∈ es) : Stands t y
  | bindings {bs : List (Binding Expr)} {y : Expr} (h : t.bindings? = some bs)
      (hy : y ∈ bs.map Binding.node) : Stands t y
  | entry {e : Expr × Expr} {y : Expr} (h : t.entry? = some e) (hy : y ∈ [e.1, e.2]) : Stands t y
  | entries {es : List (Expr × Expr)} {y : Expr} (h : t.entries? = some es)
      (hy : y ∈ es.flatMap fun e => [e.1, e.2]) : Stands t y
  | field {fs : List (Field Expr)} {y : Expr} (h : t.field? = some fs)
      (hy : y ∈ fs.map Field.node) : Stands t y
  | fields {fs : List (Field Expr)} {y : Expr} (h : t.fields? = some fs)
      (hy : y ∈ fs.map Field.node) : Stands t y

/-- The node has what a rule gives to the nodes that it makes, except for the target of an
    assignment: its position is that of the rule, a bare name comes with `fun`, and the text of a
    number is that of a token. -/
structure Owns (r : Rule) (ls : Lines) (ts : List Tree) (m : Expr) : Prop where
  pos : m.pos = ls.pos
  var : r = .assignment → m.isVar = false
  bare : m.assignsBare = true → .word .fun_ ∈ kindsOf ts
  number : ∀ p s, m = .number p s → ⟨.number, s⟩ ∈ (tokensOf ts).map Token.piece

/-- A node that one of the parts `ts` stands for, or that a rule makes over such nodes. -/
inductive Composed (r : Rule) (ls : Lines) (ts : List Tree) : Expr → Prop where
  | old {m : Expr} {v : Tree} (hv : v ∈ ts) (hm : v.Stands m) : Composed r ls ts m
  | target {t : Token} {us : List Tree} (hr : r = .assignment) (hts : ts = leaf t :: us) :
      Composed r ls ts (.var ⟨[], t.line, t.line⟩ t.text)
  | made {m : Expr} (hm : Owns r ls ts m) (h : ∀ y ∈ m.children, Composed r ls ts y) :
      Composed r ls ts m

section
variable {r : Rule} {ls : Lines} {ts : List Tree} {m : Expr}

theorem text?_eq_some {t : Tree} {s : String} (h : t.text? = some s) :
    ∃ tok : Token, t = leaf tok ∧ tok.text = s := by
  cases t with
  | leaf tok => exact ⟨tok, rfl, Option.some.inj h⟩
  | node => cases h

theorem kinds_of_symbol {t : Tree} {k : Kind} (h : t.symbol = .token k) : t.kinds = [k] := by
  obtain ⟨tok, rfl, rfl⟩ := eq_leaf h
  rfl

theorem Owns.plain (hpos : m.pos = ls.pos) (hvar : m.isVar = false) (hbare : m.assignsBare = false)
    (hnumber : m.isNumber = false) : Owns r ls ts m where
  pos := hpos
  var _ := hvar
  bare h := by cases hbare.symm.trans h
  number p s h := by cases h; cases hnumber

theorem Composed.expr {v : Tree} (hv : v ∈ ts) (h : v.expr? = some m) : Composed r ls ts m :=
  .old hv (.expr h)

theorem Composed.one {a : Expr} (hm : Owns r ls ts m) (hc : m.children = [a])
    (ha : Composed r ls ts a) : Composed r ls ts m := by
  refine .made hm ?_
  simpa [hc] using ha

theorem Composed.two {a b : Expr} (hm : Owns r ls ts m) (hc : m.children = [a, b])
    (ha : Composed r ls ts a) (hb : Composed r ls ts b) : Composed r ls ts m := by
  refine .made hm ?_
  simpa [hc] using ⟨ha, hb⟩

theorem Composed.zero (hm : Owns r ls ts m) (hc : m.children = []) : Composed r ls ts m := by
  refine .made hm ?_
  simp [hc]

theorem Composed.function {f : String} {xs : List String} {body : Expr} {rest : Bool}
    (hr : r ≠ .assignment) (hfun : .word .fun_ ∈ kindsOf ts) (hb : Composed r ls ts body) :
    Composed r ls ts (functionExpr ls.pos f xs body rest) := by
  have hbare : ∀ a, Owns r ls ts (.assign ls.pos (.bare f) a) := fun a =>
    ⟨rfl, fun _ => rfl, fun _ => hfun, by simp⟩
  have hlambda : Composed r ls ts (.lambda ls.pos xs body rest) :=
    .one (.plain rfl rfl rfl rfl) rfl hb
  have hvar : Composed r ls ts (.var ls.pos f) :=
    .zero ⟨rfl, fun h => absurd h hr, by simp [Expr.assignsBare], by simp⟩ rfl
  exact .one (hbare _) rfl (.two (.plain rfl rfl rfl rfl) rfl (.one (hbare _) rfl hlambda) hvar)

/-- An expression is made over what the parts of its tree stand for. -/
theorem composed_of_expr? (hs : ts.map symbol = r.rhs) (h : (node r ls ts).expr? = some m) :
    Composed r ls ts m := by
  cases r <;> simp only [Rule.rhs, List.map_eq_cons_iff, List.map_eq_nil_iff] at hs
  all_goals
    repeat obtain ⟨_, _, rfl, hsym, hs⟩ := hs
  -- These rules are for other phrases, or for nothing.
  case start | forLoop | assignment | memberAssignment | sequenceOne | sequenceMore | namesOne |
      namesMore | fieldsOne | fieldsMore | field | settableField | argumentsOne | argumentsMore |
      bindingsOne | bindingsMore | entry | entriesOne | entriesMore | dotsOne | dotsMore => cases h
  all_goals
    rw [expr?] at h
    try simp only [Option.pure_def, Option.bind_eq_bind, Option.bind_eq_some_iff,
      Option.some.injEq] at h
  case bool | trap | this | arrayEmpty | dictEmpty | structEmpty =>
    subst h
    exact .zero (.plain rfl rfl rfl rfl) rfl
  case importFile | string | char =>
    obtain ⟨s, -, rfl⟩ := h
    exact .zero (.plain rfl rfl rfl rfl) rfl
  case var =>
    obtain ⟨x, -, rfl⟩ := h
    exact .zero ⟨rfl, by simp, by simp [Expr.assignsBare], by simp⟩ rfl
  case number =>
    obtain ⟨s, hs, rfl⟩ := h
    obtain ⟨tok, rfl, rfl⟩ := text?_eq_some hs
    refine .zero ⟨rfl, by simp, by simp [Expr.assignsBare], fun p s h => ?_⟩ rfl
    cases h
    have hkind : tok.kind = .number := by simpa using hsym
    simp [Token.piece, hkind]
  case unary | lambdaNone | procNone | callNone | extendEmpty =>
    obtain ⟨a, ha, rfl⟩ := h
    exact .one (.plain rfl rfl rfl rfl) rfl (.expr (by simp) ha)
  case lock | lambda | lambdaRest | procLocals | procParams =>
    obtain ⟨xs, -, a, ha, rfl⟩ := h
    exact .one (.plain rfl rfl rfl rfl) rfl (.expr (by simp) ha)
  case proc =>
    obtain ⟨xs, -, ys, -, a, ha, rfl⟩ := h
    exact .one (.plain rfl rfl rfl rfl) rfl (.expr (by simp) ha)
  case member =>
    obtain ⟨a, ha, x, -, d, -, rfl⟩ := h
    exact .one (.plain rfl rfl rfl rfl) rfl (.expr (by simp) ha)
  case ownMember =>
    obtain ⟨x, -, d, -, rfl⟩ := h
    exact .one (.plain rfl rfl rfl rfl) rfl (.zero (.plain rfl rfl rfl rfl) rfl)
  case binary | index | loop | whileDo | doWhile | ifThen =>
    obtain ⟨a, ha, b, hb, rfl⟩ := h
    exact .two (.plain rfl rfl rfl rfl) rfl (.expr (by simp) ha) (.expr (by simp) hb)
  case ifThenElse =>
    obtain ⟨a, ha, b, hb, c, hc, rfl⟩ := h
    refine .made (.plain rfl rfl rfl rfl) ?_
    simpa [Expr.children] using ⟨.expr (by simp) ha, .expr (by simp) hb, .expr (by simp) hc⟩
  case paren => exact .expr (by simp) h
  case ofAssignment =>
    obtain ⟨b, hb, rfl⟩ := h
    exact .old (by simp) (.assignment hb)
  case ofMemberAssignment =>
    obtain ⟨f, hf, rfl⟩ := h
    exact .old (by simp) (.memberAssignment hf)
  case block =>
    obtain ⟨es, hes, rfl⟩ := h
    exact .made (.plain rfl rfl rfl rfl) fun y hy => .old (by simp) (.sequence hes hy)
  case array =>
    obtain ⟨es, hes, rfl⟩ := h
    exact .made (.plain rfl rfl rfl rfl) fun y hy => .old (by simp) (.arguments hes hy)
  case dict =>
    obtain ⟨es, hes, rfl⟩ := h
    exact .made (.plain rfl rfl rfl rfl) fun y hy => .old (by simp) (.entries hes hy)
  case call =>
    obtain ⟨f, hf, es, hes, rfl⟩ := h
    refine .made (.plain rfl rfl rfl rfl) (List.forall_mem_cons.2 ⟨.expr (by simp) hf, ?_⟩)
    exact fun y hy => .old (by simp) (.arguments hes hy)
  case letIn =>
    obtain ⟨bs, hbs, a, ha, rfl⟩ := h
    refine .made (.plain rfl rfl rfl rfl) (List.forall_mem_append.2 ⟨fun y hy => ?_, ?_⟩)
    · exact .old (by simp) (.bindings hbs hy)
    · simpa using .expr (by simp) ha
  case struct =>
    obtain ⟨fs, hfs, rfl⟩ := h
    exact .made (.plain rfl rfl rfl rfl) fun y hy => .old (by simp) (.fields hfs hy)
  case extend =>
    obtain ⟨fs, hfs, a, ha, rfl⟩ := h
    refine .made (.plain rfl rfl rfl rfl) (List.forall_mem_cons.2 ⟨.expr (by simp) ha, ?_⟩)
    exact fun y hy => .old (by simp) (.fields hfs hy)
  case functionNone =>
    obtain ⟨f, -, a, ha, rfl⟩ := h
    have hfun := kinds_of_symbol ‹symbol _ = .token (.word .fun_)›
    exact .function (by simp) (by simp [hfun]) (.expr (by simp) ha)
  case function | functionRest =>
    obtain ⟨f, -, xs, -, a, ha, rfl⟩ := h
    have hfun := kinds_of_symbol ‹symbol _ = .token (.word .fun_)›
    exact .function (by simp) (by simp [hfun]) (.expr (by simp) ha)

theorem of_bind {α β : Type} {o : Option α} {f : α → β} {b : β}
    (h : (do return f (← o)) = some b) : ∃ a, o = some a ∧ f a = b := by
  simpa [Option.bind_eq_some_iff] using h

theorem of_bind₂ {α β γ : Type} {o : Option α} {p : Option β} {f : α → β → γ} {c : γ}
    (h : (do return f (← o) (← p)) = some c) : ∃ a, o = some a ∧ ∃ b, p = some b ∧ f a b = c := by
  simpa [Option.bind_eq_some_iff] using h

theorem composed_of_assignment? {b : Binding Expr} (h : (node r ls ts).assignment? = some b) :
    Composed r ls ts b.node := by
  rw [assignment?.eq_def] at h
  split at h
  · next heq =>
    cases heq
    obtain ⟨x, hx, a, ha, rfl⟩ := of_bind₂ h
    obtain ⟨tok, rfl, rfl⟩ := text?_eq_some hx
    exact .two (.plain rfl rfl rfl rfl) rfl (.target rfl rfl) (.expr (by simp) ha)
  · cases h

theorem composed_of_memberAssignment? {f : Field Expr}
    (h : (node r ls ts).memberAssignment? = some f) : Composed r ls ts f.node := by
  rw [memberAssignment?.eq_def] at h
  split at h
  · next heq =>
    cases heq
    obtain ⟨x, -, a, ha, rfl⟩ := of_bind₂ h
    exact .one (.plain rfl rfl rfl rfl) rfl (.expr (by simp) ha)
  · cases h

theorem composed_of_sequence? {es : List Expr} (h : (node r ls ts).sequence? = some es)
    (hm : m ∈ es) : Composed r ls ts m := by
  rw [sequence?.eq_def] at h
  split at h
  · next heq =>
    cases heq
    obtain ⟨a, ha, rfl⟩ := of_bind h
    obtain rfl := List.mem_singleton.1 hm
    exact .expr (by simp) ha
  · next heq =>
    cases heq
    obtain ⟨as, has, a, ha, rfl⟩ := of_bind₂ h
    obtain hm | hm := List.mem_append.1 hm
    · exact .old (by simp) (.sequence has hm)
    · obtain rfl := List.mem_singleton.1 hm
      exact .expr (by simp) ha
  · cases h

theorem composed_of_arguments? {es : List Expr} (h : (node r ls ts).arguments? = some es)
    (hm : m ∈ es) : Composed r ls ts m := by
  rw [arguments?.eq_def] at h
  split at h
  · next heq =>
    cases heq
    obtain ⟨a, ha, rfl⟩ := of_bind h
    obtain rfl := List.mem_singleton.1 hm
    exact .expr (by simp) ha
  · next heq =>
    cases heq
    obtain ⟨a, ha, as, has, rfl⟩ := of_bind₂ h
    obtain rfl | hm := List.mem_cons.1 hm
    · exact .expr (by simp) ha
    · exact .old (by simp) (.arguments has hm)
  · cases h

theorem composed_of_bindings? {bs : List (Binding Expr)} (h : (node r ls ts).bindings? = some bs)
    (hm : m ∈ bs.map Binding.node) : Composed r ls ts m := by
  rw [bindings?.eq_def] at h
  split at h
  · next heq =>
    cases heq
    obtain ⟨b, hb, rfl⟩ := of_bind h
    obtain rfl := List.mem_singleton.1 hm
    exact .old (by simp) (.assignment hb)
  · next heq =>
    cases heq
    obtain ⟨b, hb, bs, hbs, rfl⟩ := of_bind₂ h
    obtain rfl | hm := List.mem_cons.1 hm
    · exact .old (by simp) (.assignment hb)
    · exact .old (by simp) (.bindings hbs hm)
  · cases h

theorem composed_of_entry {e : Expr × Expr} (h : Tree.entry? (node r ls ts) = some e)
    (hm : m ∈ [e.1, e.2]) : Composed r ls ts m := by
  rw [ entry?.eq_def] at h
  split at h
  · next heq =>
    cases heq
    obtain ⟨k, hk, v, hv, rfl⟩ := of_bind₂ h
    obtain rfl | rfl : m = k ∨ m = v := by simpa using hm
    · exact .expr (by simp) hk
    · exact .expr (by simp) hv
  · cases h

theorem composed_of_entries? {es : List (Expr × Expr)} (h : (node r ls ts).entries? = some es)
    (hm : m ∈ es.flatMap fun e => [e.1, e.2]) : Composed r ls ts m := by
  rw [entries?.eq_def] at h
  split at h
  · next heq =>
    cases heq
    obtain ⟨e, he, rfl⟩ := of_bind h
    exact .old (by simp) (.entry he (by simpa using hm))
  · next heq =>
    cases heq
    obtain ⟨e, he, es, hes, rfl⟩ := of_bind₂ h
    rw [List.flatMap_cons] at hm
    obtain hm | hm := List.mem_append.1 hm
    · exact .old (by simp) (.entry he hm)
    · exact .old (by simp) (.entries hes hm)
  · cases h

theorem Composed.setter (hr : r ≠ .assignment) (x : String) :
    Composed r ls ts (setter ls.pos x).node := by
  have hvar : Composed r ls ts (.var ls.pos x) :=
    .zero ⟨rfl, fun h => absurd h hr, by simp [Expr.assignsBare], by simp⟩ rfl
  have hbody : Composed r ls ts (.memberAssign ls.pos x (.var ls.pos x)) :=
    .one (.plain rfl rfl rfl rfl) rfl hvar
  exact .one (.plain rfl rfl rfl rfl) rfl (.one (.plain rfl rfl rfl rfl) rfl hbody)

theorem composed_of_field? {fs : List (Field Expr)} (h : (node r ls ts).field? = some fs)
    (hm : m ∈ fs.map Field.node) : Composed r ls ts m := by
  rw [field?.eq_def] at h
  split at h
  · next heq =>
    cases heq
    obtain ⟨f, hf, rfl⟩ := of_bind h
    obtain rfl := List.mem_singleton.1 hm
    exact .old (by simp) (.memberAssignment hf)
  · next heq =>
    cases heq
    obtain ⟨f, hf, rfl⟩ := of_bind h
    obtain rfl | rfl : m = f.node ∨ m = (Grammar.setter ls.pos f.name).node := by simpa using hm
    · exact .old (by simp) (.memberAssignment hf)
    · exact .setter (by simp) f.name
  · cases h

theorem composed_of_fields? {fs : List (Field Expr)} (h : (node r ls ts).fields? = some fs)
    (hm : m ∈ fs.map Field.node) : Composed r ls ts m := by
  rw [fields?.eq_def] at h
  split at h
  · next heq =>
    cases heq
    exact .old (by simp) (.field h hm)
  · next heq =>
    cases heq
    obtain ⟨f, hf, fs, hfs, rfl⟩ := of_bind₂ h
    rw [List.map_append] at hm
    obtain hm | hm := List.mem_append.1 hm
    · exact .old (by simp) (.field hf hm)
    · exact .old (by simp) (.fields hfs hm)
  · cases h

/-- What a tree stands for is made by its rule or stood for by a child. -/
theorem composed_of_stands (hs : ts.map symbol = r.rhs) (h : (node r ls ts).Stands m) :
    Composed r ls ts m := by
  cases h with
  | expr h => exact composed_of_expr? hs h
  | assignment h => exact composed_of_assignment? h
  | memberAssignment h => exact composed_of_memberAssignment? h
  | sequence h hm => exact composed_of_sequence? h hm
  | arguments h hm => exact composed_of_arguments? h hm
  | bindings h hm => exact composed_of_bindings? h hm
  | entry h hm => exact composed_of_entry h hm
  | entries h hm => exact composed_of_entries? h hm
  | field h hm => exact composed_of_field? h hm
  | fields h hm => exact composed_of_fields? h hm

def Has (t : Tree) (n : Expr) : Prop := ∃ m, t.Stands m ∧ m.HasNode n

/-- What is below a node that is made or stood for, is as well. -/
theorem Composed.hasNode {n : Expr} (h : Composed r ls ts m) (hn : m.HasNode n) :
    (∃ v ∈ ts, v.Has n) ∨ Owns r ls ts n ∨ r = .assignment ∧ ∃ t us, ts = leaf t :: us ∧
      n = .var ⟨[], t.line, t.line⟩ t.text := by
  induction h with
  | old hv hm => exact .inl ⟨_, hv, _, hm, hn⟩
  | target hr hts =>
    obtain rfl | ⟨a, ha, -⟩ := hn.self_or_child
    · exact .inr (.inr ⟨hr, _, _, hts, rfl⟩)
    · cases ha
  | made hm _ ih =>
    obtain rfl | ⟨a, ha, hn⟩ := hn.self_or_child
    · exact .inr (.inl hm)
    · exact ih a ha hn

end

/-! ## Trees and their parts -/

/-- The trees right below the topmost rule. -/
def children : Tree → List Tree
  | leaf _ => []
  | node _ _ ts => ts

/-- `u` is a part of `t`. -/
inductive Sub (t : Tree) : Tree → Prop where
  | self : Sub t t
  | child {u v : Tree} (h : Sub t u) (hv : v ∈ u.children) : Sub t v

theorem Sub.trans {t u v : Tree} (h : t.Sub u) (hv : u.Sub v) : t.Sub v := by
  induction hv with
  | self => exact h
  | child _ hw ih => exact ih.child hw

/-- The topmost rule of the tree made the node: no part of the tree stands for it. -/
def Makes (u : Tree) (n : Expr) : Prop := u.Has n ∧ ∀ v ∈ u.children, ¬ v.Has n

/-- Every node of what a tree stands for is made by one of its rules. -/
theorem exists_makes {t : Tree} (hok : t.Ok) {n : Expr} (h : t.Has n) :
    ∃ u, t.Sub u ∧ u.Makes n := by
  induction hok with
  | leaf tok => exact ⟨_, .self, h, fun v hv => by cases hv⟩
  | @node r ls ts _ _ _ ih =>
    by_cases hc : ∃ v ∈ ts, v.Has n
    · obtain ⟨v, hv, hn⟩ := hc
      obtain ⟨u, hu, hm⟩ := ih v hv hn
      exact ⟨u, (Sub.child .self hv).trans hu, hm⟩
    · exact ⟨_, .self, h, fun v hv hn => hc ⟨v, hv, hn⟩⟩

end Tree

end Grammar

end ExprLang
