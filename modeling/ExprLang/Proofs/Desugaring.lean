/-
  Forms that should stand for longer ones.

  `fun f x -> e` should stand for `f = local f = \x -> e in f`, and `for a; c; s do b` for
  `{ a; while c do { b; s } }`.  Neither does, whatever the parts are:

  * `parse_function`, `parse_assigned`: both ways to write a function are read as an assignment of
    the same shape, but with `fun` the name is not made a variable, so that nothing can be assigned
    to it (`exec_functionExpr`), while the long form binds the function (`exec_assigned`);
  * `parse_of_for`: no text with a `for` is read at all, while `parse_block` reads the block.

  `sugar_fails` puts this together.
-/
import ExprLang.Proofs.Lexing
import ExprLang.Proofs.ParsePatterns
import ExprLang.Proofs.Recovery
import ExprLang.Proofs.Runs
import ExprLang.Proofs.Scopes
import Mathlib

namespace ExprLang

namespace Grammar

open Grammar.Tree Grammar.Pattern

/-! ## Texts with and without refused rules -/

/-- Two dots, a name and `=`. -/
abbrev outer : List Kind := [.mark .dot, .mark .dot, .ident, .mark .assign]

/-- What does not contain `k` stands before it or behind it. -/
theorem infix_of_append_cons {l xs ys : List Kind} {k : Kind} (h : l <:+: xs ++ k :: ys)
    (hk : k ∉ l) : l <:+: xs ∨ l <:+: ys := by
  obtain ⟨s, t, h⟩ := h
  rw [List.append_assoc] at h
  rcases List.append_eq_append_iff.1 h with ⟨a, rfl, ha⟩ | ⟨a, rfl, ha⟩
  · rcases List.append_eq_append_iff.1 ha with ⟨b, rfl, -⟩ | ⟨b, rfl, hb⟩
    · exact .inl ⟨s, b, by simp⟩
    · cases b with
      | nil => exact .inl ⟨s, [], by simp⟩
      | cons c b =>
        obtain ⟨rfl, -⟩ := List.cons.inj hb
        exact absurd (by simp) hk
  · cases a with
    | nil =>
      cases l with
      | nil => exact .inl ⟨[], xs, rfl⟩
      | cons c l =>
        obtain ⟨rfl, -⟩ := List.cons.inj ha
        exact absurd (by simp) hk
    | cons c a =>
      obtain ⟨rfl, rfl⟩ := List.cons.inj ha
      exact .inr ⟨a, t, by simp⟩

theorem Plain.append_cons {xs ys : List Kind} {k : Kind} (hx : Plain xs) (hy : Plain ys)
    (hk : k ∉ .word .for_ :: outer) : Plain (xs ++ k :: ys) := by
  rw [List.mem_cons, not_or] at hk
  refine ⟨?_, fun ho => ?_⟩
  · rw [List.mem_append, List.mem_cons, not_or, not_or]
    exact ⟨hx.noFor, fun h => hk.1 h.symm, hy.noFor⟩
  · rcases infix_of_append_cons ho hk.2 with ho | ho
    · exact hx.noOuter ho
    · exact hy.noOuter ho

theorem plain_of_not_mem {ks : List Kind} (hfor : .word .for_ ∉ ks) (ha : .mark .assign ∉ ks) :
    Plain ks :=
  ⟨hfor, fun ho => ha (ho.subset (by simp))⟩

theorem exists_mem_kinds {k : Kind} : ∀ {ts : List Tree}, k ∈ kindsOf ts → ∃ t ∈ ts, k ∈ t.kinds
  | [], h => absurd h (by simp)
  | t :: ts, h => by
    rw [kindsOf_cons, List.mem_append] at h
    rcases h with h | h
    · exact ⟨t, by simp, h⟩
    · obtain ⟨u, hu, hk⟩ := exists_mem_kinds h
      exact ⟨u, by simp [hu], hk⟩

theorem eq_forLoop {r : Rule} (h : .token (.word .for_) ∈ r.rhs) : r = .forLoop := by
  have hall : rules.all
      (fun r => r == .forLoop || !r.rhs.contains (.token (.word .for_))) = true := by
    decide +kernel
  have hr := List.all_eq_true.1 hall r (mem_rules r)
  simpa [h] using hr

/-- If no rule was refused in a phrase, there is no `for` in it. -/
theorem noFor_of_accepted {t : Tree} (hok : t.Ok) (ha : t.Accepted) :
    ∀ {a : Phrase}, t.symbol = .phrase a → .word .for_ ∉ t.kinds := by
  induction hok with
  | leaf t => exact fun h => Symbol.noConfusion h
  | @node r ls ts hr hs hok ih =>
    intro a _ hfor
    obtain ⟨t, ht, hk⟩ := exists_mem_kinds hfor
    cases ha with
    | node hrefuse hparts =>
      cases t with
      | node r' ls' us => exact ih _ ht (hparts _ ht) rfl hk
      | leaf tok =>
        have htok : tok.kind = .word .for_ := by simpa [Tree.kinds, eq_comm] using hk
        have hmem : .token (.word .for_) ∈ r.rhs := by
          rw [← hs]
          exact List.mem_map.2 ⟨leaf tok, ht, by rw [symbol_leaf, htok]⟩
        obtain rfl := eq_forLoop hmem
        cases hrefuse

end Grammar

open Grammar Grammar.Tree Grammar.Pattern

/-- **No text with a `for` is read.** -/
theorem parse_of_for {text : String} (hi : (lex text).illegal = none)
    (hd : Derives [.phrase .expression] ((lex text).tokens.map (·.kind)))
    (hfor : .word .for_ ∈ (lex text).tokens.map (·.kind))
    (ho : ¬ outer <:+: (lex text).tokens.map (·.kind)) : parse text = .error .forLoop := by
  obtain ⟨m, hsteps, h, ha, hv | ⟨x, hx⟩⟩ :=
    (moves_of_derives hd).steps_or_refused hi (.start (lex text)) (by simp [Machine.start])
  · -- Without a refused rule there would be a tree of the whole text, `for` included.
    obtain ⟨hstack, hinput⟩ := Prod.mk.inj hv
    have htop : Machine.top m.stack = 1 := by rw [← topState_map, hstack]; rfl
    obtain ⟨f, hf, hok, hsym, htokens, -⟩ := h.accept (List.map_eq_nil_iff.1 hinput)
      (h.stop.trans hi) (by rw [htop]; exact (TableFacts.whole tableFacts).2.2)
    rw [← htokens] at hfor
    exact absurd hfor (noFor_of_accepted hok (ha f.tree (by simp [hf])) hsym)
  · cases x with
    | forLoop =>
      have hhalt := (hx.forLoop hi h).2
      rw [parse_eq_read, derive, Steps.run_eq hsteps trivial (left_start _) (Nat.lt_succ_self _),
        Machine.run, hhalt]
      rfl
    | outerAssignment =>
      obtain ⟨r, hr, hrefuse⟩ := hx
      obtain ⟨rfl, ls, us, vs, hchildren⟩ := of_refusal_outerAssignment hrefuse
      obtain ⟨hsym, hok, -⟩ := h.linked.children hr
      rw [hchildren] at hsym hok
      refine absurd ((infix_of_dotsMore hok hsym).trans ?_) ho
      rw [← hchildren, ← h.tokens, ← trees_take_drop Rule.memberAssignment.rhs.length m.stack,
        tokensOf_append, List.map_append, List.map_append]
      exact ⟨_, _, rfl⟩

/-! ## Parts of a text -/

/-- The pieces form a phrase, in which nothing is assigned behind two dots. -/
structure IsPhrase (a : Phrase) (ps : List Piece) : Prop where
  derives : Derives [.phrase a] (ps.map (·.kind))
  noOuter : ¬ outer <:+: ps.map (·.kind)

def ReadsAs (ps : List Piece) (e : Expr) : Prop :=
  ∃ t : Tree, t.Ok ∧ t.symbol = .phrase .expression ∧ t.tokens.map Token.piece = ps ∧
    t.expr? = some e

section
variable {a : Phrase} {ps : List Piece} {t : Tree}

theorem noFor_of_pieces (hfor : .word .for_ ∉ ps.map (·.kind))
    (ht : t.tokens.map Token.piece = ps) : .word .for_ ∉ t.kinds := by
  rw [← ht, List.map_map] at hfor
  exact hfor

theorem reading_of_matches (hfor : .word .for_ ∉ ps.map (·.kind))
    (ht : (Pattern.phrase .expression ps).Matches t) : ∃ e, t.expr? = some e ∧ ReadsAs ps e := by
  obtain ⟨hok, hsym, hps⟩ := ht
  have hmeans := means_of_ok hok (noFor_of_pieces hfor hps)
  rw [Means, hsym] at hmeans
  obtain ⟨e, he⟩ := Option.isSome_iff_exists.1 hmeans
  exact ⟨e, he, t, hok, hsym, hps, he⟩

theorem assignment_of_matches (hfor : .word .for_ ∉ ps.map (·.kind))
    (ht : (Pattern.node .ofAssignment [.phrase .assignment ps]).Matches t) :
    ∃ e, t.expr? = some e ∧ ReadsAs ps e := by
  obtain ⟨_, rfl, u, _, rfl, ⟨hok, hsym, hps⟩, rfl⟩ := ht
  have hwhole : (Tree.apply .ofAssignment [u]).Ok :=
    .node (by decide) (by simp [hsym, Rule.rhs]) (by simpa using hok)
  have htokens : (Tree.apply .ofAssignment [u]).tokens.map Token.piece = ps := by
    simpa [Tree.apply] using hps
  exact reading_of_matches hfor ⟨hwhole, rfl, htokens⟩

theorem text_of_matches {p : Piece} (ht : (Pattern.token p).Matches t) :
    t.text? = some p.text := by
  obtain ⟨-, hsym, hps⟩ := ht
  obtain ⟨tok, rfl, -⟩ := eq_leaf hsym
  obtain rfl : tok.piece = p := by simpa using hps
  rfl

theorem names?_of_ok (h : t.Ok) : ∀ {xs : List String}, t.symbol = .phrase .names →
    t.tokens.map Token.piece = listNames xs → t.names? = some xs := by
  induction h with
  | leaf t =>
    intro xs hsym
    cases hsym
  | @node r ls ts _ hs _ ih =>
    intro xs hsym hps
    cases r <;> simp only [symbol_node, Rule.lhs, Symbol.phrase.injEq, reduceCtorEq] at hsym
    case namesOne =>
      obtain ⟨a, rfl, ha⟩ := List.map_eq_singleton_iff.1 hs
      obtain ⟨tok, rfl, hk⟩ := eq_leaf ha
      rcases xs with _ | ⟨x, _ | ⟨y, xs⟩⟩
      · simp [listNames] at hps
      · obtain rfl : tok.text = x := by simpa [listNames, Token.piece, Piece.name, hk] using hps
        rfl
      · simp [listNames] at hps
    case namesMore =>
      obtain ⟨a, as, rfl, ha, hs⟩ := List.map_eq_cons_iff.1 hs
      obtain ⟨b, bs, rfl, hb, hs⟩ := List.map_eq_cons_iff.1 hs
      obtain ⟨c, rfl, hc⟩ := List.map_eq_singleton_iff.1 hs
      obtain ⟨tok, rfl, hk⟩ := eq_leaf ha
      obtain ⟨comma, rfl, -⟩ := eq_leaf hb
      rcases xs with _ | ⟨x, _ | ⟨y, xs⟩⟩
      · simp [listNames] at hps
      · simp [listNames] at hps
      · simp only [listNames, tokens_node, tokensOf_cons, tokens_leaf, tokensOf_nil,
          List.append_nil, List.map_cons, List.cons_append, List.nil_append,
          List.cons.injEq] at hps
        obtain ⟨hx, -, hps⟩ := hps
        obtain rfl : tok.text = x := congrArg Piece.text hx
        have hnames := ih c (by simp) hc hps
        rw [names?, hnames]
        rfl

end

theorem derives_names : ∀ {xs : List String}, xs ≠ [] →
    Derives [.phrase .names] ((listNames xs).map (·.kind))
  | [], h => absurd rfl h
  | [_], _ => .rule (r := .namesOne) (.token .nil)
  | _ :: y :: xs, _ =>
    .rule (r := .namesMore) (.token (.token (derives_names (List.cons_ne_nil y xs))))

theorem kind_of_listParams {xs : List String} {rest : Bool} {k : Kind}
    (h : k ∈ (listParams xs rest).map (·.kind)) : k ∈ [.ident, .mark .comma, .mark .dot] := by
  have hnames : ∀ xs : List String, k ∈ (listNames xs).map (·.kind) →
      k = .ident ∨ k = .mark .comma := by
    intro xs
    induction xs with
    | nil => simp [listNames]
    | cons x xs ih =>
      cases xs with
      | nil =>
        intro h
        exact .inl (by simpa [listNames, Piece.name] using h)
      | cons y xs =>
        rw [listNames, List.map_cons, List.map_cons, List.mem_cons, List.mem_cons]
        · rintro (h | h | h)
          · exact .inl h
          · exact .inr h
          · exact ih h
        · simp
  rw [listParams, List.map_append, List.mem_append] at h
  rcases h with h | h
  · rcases hnames xs h with rfl | rfl <;> simp
  · cases rest <;> simp [Piece.mark] at h
    simp [h]

/-! ## Functions -/

/-- `fun f xs -> body` -/
def functionPieces (f : String) (xs : List String) (rest : Bool) (body : List Piece) : List Piece :=
  .word .fun_ :: .name f :: listParams xs rest ++ .mark .arrow :: body

/-- `f = local f = \xs -> body in f` -/
def assignedPieces (f : String) (xs : List String) (rest : Bool) (body : List Piece) : List Piece :=
  .name f :: .mark .assign :: .word .local_ :: .name f :: .mark .assign :: .mark .backslash ::
    listParams xs rest ++ .mark .arrow :: body ++ [.word .in_, .name f]

def paramPatterns (xs : List String) (rest : Bool) : List Pattern :=
  if xs = [] then []
  else .phrase .names (listNames xs) ::
    if rest then List.replicate 3 (.token (.mark .dot)) else []

/-- The rule for a list of parameters: there are none, or some, or the last one takes all further
    arguments. -/
def paramRule (none some rest : Rule) (xs : List String) (takesRest : Bool) : Rule :=
  if xs = [] then none else if takesRest then rest else some

section
variable (f : String) (xs : List String) (rest : Bool) (body : List Piece)

def functionPattern : Pattern :=
  .node (paramRule .functionNone .function .functionRest xs rest)
    (.token (.word .fun_) :: .token (.name f) :: paramPatterns xs rest ++
      [.token (.mark .arrow), .phrase .expression body])

def lambdaPattern : Pattern :=
  .node (paramRule .lambdaNone .lambda .lambdaRest xs rest)
    (.token (.mark .backslash) :: paramPatterns xs rest ++
      [.token (.mark .arrow), .phrase .expression body])

/-- `f = k` -/
def assignPattern (k : Pattern) : Pattern :=
  .node .assignment [.token (.name f), .token (.mark .assign), k]

/-- `local k in f` -/
def localPattern (k : Pattern) : Pattern :=
  .node .letIn [.token (.word .local_), .node .bindingsOne [k], .token (.word .in_),
    .node .var [.token (.name f)]]

def assignedPattern : Pattern :=
  .node .ofAssignment
    [assignPattern f (localPattern f (assignPattern f (lambdaPattern xs rest body)))]

end

section
variable {f : String} {xs : List String} {rest : Bool} {body : List Piece}

theorem params_cases (hxs : rest = true → xs ≠ []) :
    (xs = [] ∧ rest = false) ∨ (xs ≠ [] ∧ rest = false) ∨ (xs ≠ [] ∧ rest = true) := by
  cases rest with
  | true => exact .inr (.inr ⟨hxs rfl, rfl⟩)
  | false =>
    rcases eq_or_ne xs [] with h | h
    · exact .inl ⟨h, rfl⟩
    · exact .inr (.inl ⟨h, rfl⟩)

theorem derivable_params (hxs : rest = true → xs ≠ []) :
    ∀ k ∈ paramPatterns xs rest, k.Derivable := by
  rcases params_cases hxs with ⟨rfl, rfl⟩ | ⟨hne, rfl⟩ | ⟨hne, rfl⟩
  · simp [paramPatterns]
  · simp [paramPatterns, hne, derives_names hne]
  · simp [paramPatterns, hne, derives_names hne]

theorem pieces_params (hxs : rest = true → xs ≠ []) :
    (paramPatterns xs rest).flatMap Pattern.pieces = listParams xs rest := by
  rcases params_cases hxs with ⟨rfl, rfl⟩ | ⟨hne, rfl⟩ | ⟨hne, rfl⟩
  · rfl
  · simp [paramPatterns, listParams, hne]
  · simp [paramPatterns, listParams, hne, List.replicate_succ]

theorem pieces_functionPattern (hxs : rest = true → xs ≠ []) :
    (functionPattern f xs rest body).pieces = functionPieces f xs rest body := by
  simp [functionPattern, functionPieces, pieces_params hxs]

theorem pieces_assignedPattern (hxs : rest = true → xs ≠ []) :
    (assignedPattern f xs rest body).pieces = assignedPieces f xs rest body := by
  simp [assignedPattern, assignPattern, localPattern, lambdaPattern, assignedPieces,
    pieces_params hxs]

/-- The automaton only sees whether there are parameters, and whether the last one takes the rest. -/
theorem bare_patterns (f : String) (body : List Piece) {ys : List String} (h : xs = [] ↔ ys = []) :
    (functionPattern f xs rest body).bare = (functionPattern "" ys rest []).bare ∧
      (assignedPattern f xs rest body).bare = (assignedPattern "" ys rest []).bare := by
  rcases eq_or_ne xs [] with rfl | hne
  · obtain rfl := h.1 rfl
    exact ⟨rfl, rfl⟩
  · have hys : ys ≠ [] := fun hy => hne (h.2 hy)
    simp only [functionPattern, assignedPattern, assignPattern, localPattern, lambdaPattern,
      paramRule, paramPatterns, if_neg hne, if_neg hys]
    cases rest with
    | false => exact ⟨rfl, rfl⟩
    | true => exact ⟨rfl, rfl⟩

theorem check_patterns (f : String) (body : List Piece) (hxs : rest = true → xs ≠ []) :
    (functionPattern f xs rest body).bare.check (some none) 0 = some 1 ∧
      (assignedPattern f xs rest body).bare.check (some none) 0 = some 1 := by
  rcases params_cases hxs with ⟨rfl, rfl⟩ | ⟨hne, rfl⟩ | ⟨hne, rfl⟩
  · rw [(bare_patterns f body Iff.rfl).1, (bare_patterns f body Iff.rfl).2]
    decide +kernel
  · have hone : xs = [] ↔ [""] = [] := by simp [hne]
    rw [(bare_patterns f body hone).1, (bare_patterns f body hone).2]
    decide +kernel
  · have hone : xs = [] ↔ [""] = [] := by simp [hne]
    rw [(bare_patterns f body hone).1, (bare_patterns f body hone).2]
    decide +kernel

theorem plain_params (xs : List String) (rest : Bool) :
    Plain (.ident :: (listParams xs rest).map (·.kind)) := by
  refine plain_of_not_mem ?_ ?_
  · intro h
    rcases List.mem_cons.1 h with h | h
    · cases h
    · simpa using kind_of_listParams h
  · intro h
    rcases List.mem_cons.1 h with h | h
    · cases h
    · simpa using kind_of_listParams h

theorem plain_functionPieces (hb : Plain (body.map (·.kind))) :
    Plain ((functionPieces f xs rest body).map (·.kind)) := by
  have hempty : Plain [] := plain_of_not_mem (by simp) (by simp)
  have hall := hempty.append_cons (k := .word .fun_)
    ((plain_params xs rest).append_cons (k := .mark .arrow) hb (by decide)) (by decide)
  simpa [functionPieces, Piece.word, Piece.name, Piece.mark] using hall

theorem plain_assignedPieces (hb : Plain (body.map (·.kind))) :
    Plain ((assignedPieces f xs rest body).map (·.kind)) := by
  have hassign : Plain [.ident, .mark .assign] := ⟨by decide, by decide⟩
  have hname : Plain [.ident] := ⟨by decide, by decide⟩
  have hparams : Plain ((listParams xs rest).map (·.kind)) :=
    Plain.of_infix (plain_params xs rest) ⟨[.ident], [], by simp⟩
  have hlambda := hparams.append_cons (k := .mark .arrow)
    (hb.append_cons (k := .word .in_) hname (by decide)) (by decide)
  have hall := hassign.append_cons (k := .word .local_)
    (hassign.append_cons (k := .mark .backslash) hlambda (by decide)) (by decide)
  simpa [assignedPieces, Piece.word, Piece.name, Piece.mark] using hall

end

section
variable {f : String} {xs : List String} {rest : Bool} {body : List Piece} {t : Tree} {text : String}

theorem names_of_matches (ht : (Pattern.phrase .names (listNames xs)).Matches t) :
    t.names? = some xs := by
  obtain ⟨hok, hsym, hps⟩ := ht
  exact names?_of_ok hok hsym hps

theorem function_of_matches (hxs : rest = true → xs ≠ []) (hfor : .word .for_ ∉ body.map (·.kind))
    (ht : (functionPattern f xs rest body).Matches t) :
    ∃ p e, t.expr? = some (functionExpr p f xs e rest) ∧ ReadsAs body e := by
  -- One case per rule; of the trees, only those of the names and of the body matter.
  rcases params_cases hxs with ⟨rfl, rfl⟩ | ⟨hne, rfl⟩ | ⟨hne, rfl⟩
  · simp only [functionPattern, paramRule, paramPatterns, ↓reduceIte] at ht
    obtain ⟨_, rfl, _, _, rfl, -, _, _, rfl, hf, _, _, rfl, -, _, _, rfl, hb, rfl⟩ := ht
    obtain ⟨e, he, hread⟩ := reading_of_matches hfor hb
    rw [Tree.apply, expr?, text_of_matches hf, he]
    exact ⟨_, e, rfl, hread⟩
  · simp only [functionPattern, paramRule, paramPatterns, if_neg hne, Bool.false_eq_true,
      if_false] at ht
    obtain ⟨_, rfl, _, _, rfl, -, _, _, rfl, hf, _, _, rfl, hn, _, _, rfl, -, _, _, rfl, hb, rfl⟩ :=
      ht
    obtain ⟨e, he, hread⟩ := reading_of_matches hfor hb
    rw [Tree.apply, expr?, text_of_matches hf, names_of_matches hn, he]
    exact ⟨_, e, rfl, hread⟩
  · simp only [functionPattern, paramRule, paramPatterns, if_neg hne, if_true] at ht
    obtain ⟨_, rfl, _, _, rfl, -, _, _, rfl, hf, _, _, rfl, hn, _, _, rfl, -, _, _, rfl, -,
      _, _, rfl, -, _, _, rfl, -, _, _, rfl, hb, rfl⟩ := ht
    obtain ⟨e, he, hread⟩ := reading_of_matches hfor hb
    rw [Tree.apply, expr?, text_of_matches hf, names_of_matches hn, he]
    exact ⟨_, e, rfl, hread⟩

theorem lambda_of_matches (hxs : rest = true → xs ≠ []) (hfor : .word .for_ ∉ body.map (·.kind))
    (ht : (lambdaPattern xs rest body).Matches t) :
    ∃ p e, t.expr? = some (.lambda p xs e rest) ∧ ReadsAs body e := by
  rcases params_cases hxs with ⟨rfl, rfl⟩ | ⟨hne, rfl⟩ | ⟨hne, rfl⟩
  · simp only [lambdaPattern, paramRule, paramPatterns, ↓reduceIte] at ht
    obtain ⟨_, rfl, _, _, rfl, -, _, _, rfl, -, _, _, rfl, hb, rfl⟩ := ht
    obtain ⟨e, he, hread⟩ := reading_of_matches hfor hb
    rw [Tree.apply, expr?, he]
    exact ⟨_, e, rfl, hread⟩
  · simp only [lambdaPattern, paramRule, paramPatterns, if_neg hne, Bool.false_eq_true,
      if_false] at ht
    obtain ⟨_, rfl, _, _, rfl, -, _, _, rfl, hn, _, _, rfl, -, _, _, rfl, hb, rfl⟩ := ht
    obtain ⟨e, he, hread⟩ := reading_of_matches hfor hb
    rw [Tree.apply, expr?, names_of_matches hn, he]
    exact ⟨_, e, rfl, hread⟩
  · simp only [lambdaPattern, paramRule, paramPatterns, if_neg hne, if_true] at ht
    obtain ⟨_, rfl, _, _, rfl, -, _, _, rfl, hn, _, _, rfl, -, _, _, rfl, -, _, _, rfl, -,
      _, _, rfl, -, _, _, rfl, hb, rfl⟩ := ht
    obtain ⟨e, he, hread⟩ := reading_of_matches hfor hb
    rw [Tree.apply, expr?, names_of_matches hn, he]
    exact ⟨_, e, rfl, hread⟩

theorem assign_of_matches {k : Pattern} (ht : (assignPattern f k).Matches t) :
    ∃ u, k.Matches u ∧ ∀ {e : Expr}, u.expr? = some e →
      ∃ p q, t.assignment? = some ⟨p, .var q f, e⟩ := by
  obtain ⟨_, rfl, x, _, rfl, hx, _, _, rfl, -, u, _, rfl, hu, rfl⟩ := ht
  refine ⟨u, hu, fun he => ?_⟩
  rw [Tree.apply, assignment?, text_of_matches hx, he]
  exact ⟨_, _, rfl⟩

theorem local_of_matches {k : Pattern} (ht : (localPattern f k).Matches t) :
    ∃ u, k.Matches u ∧ ∀ {b : Binding Expr}, u.assignment? = some b →
      ∃ p q, t.expr? = some (.letIn p [b] (.var q f)) := by
  obtain ⟨_, rfl, _, _, rfl, -, _, _, rfl, ⟨_, rfl, u, _, rfl, hu, rfl⟩, _, _, rfl, -, _, _, rfl,
    ⟨_, rfl, x, _, rfl, hx, rfl⟩, rfl⟩ := ht
  refine ⟨u, hu, fun he => ?_⟩
  simp only [Tree.apply, expr?, bindings?, he, text_of_matches hx]
  exact ⟨_, _, rfl⟩

/-- With `fun`, the name of the function is left bare. -/
theorem parse_function (hxs : rest = true → xs ≠ []) (hb : IsPhrase .expression body)
    (hfor : .word .for_ ∉ body.map (·.kind)) (hw : Written text (functionPieces f xs rest body)) :
    ∃ p e, parse text = .ok (some (functionExpr p f xs e rest)) ∧ ReadsAs body e := by
  rw [← pieces_functionPattern hxs] at hw
  have hd : (functionPattern f xs rest body).Derivable := by
    simp only [functionPattern, derivable_node, List.cons_append, List.forall_mem_cons,
      List.forall_mem_append, derivable_token, derivable_phrase, true_and]
    exact ⟨derivable_params hxs, hb.derives, by simp⟩
  obtain ⟨t, ht, hparse⟩ := parse_of_pattern hw hd
    (by rw [pieces_functionPattern hxs]; exact plain_functionPieces ⟨hfor, hb.noOuter⟩)
    (check_patterns f body hxs).1
  obtain ⟨p, e, he, hread⟩ := function_of_matches hxs hfor ht
  exact ⟨p, e, by rw [hparse, he], hread⟩

/-- In the long form it is a variable. -/
theorem parse_assigned (hxs : rest = true → xs ≠ []) (hb : IsPhrase .expression body)
    (hfor : .word .for_ ∉ body.map (·.kind)) (hw : Written text (assignedPieces f xs rest body)) :
    ∃ p₁ p₂ p₃ p₄ p₅ p₆ p₇ e, parse text = .ok (some (.assign p₁ (.var p₂ f)
      (.letIn p₃ [⟨p₄, .var p₅ f, .lambda p₆ xs e rest⟩] (.var p₇ f)))) ∧ ReadsAs body e := by
  rw [← pieces_assignedPattern hxs] at hw
  have hd : (assignedPattern f xs rest body).Derivable := by
    simp only [assignedPattern, assignPattern, localPattern, lambdaPattern, derivable_node,
      List.cons_append, List.forall_mem_cons, List.forall_mem_append, derivable_token,
      derivable_phrase, true_and]
    simpa [hb.derives] using derivable_params hxs
  obtain ⟨t, ht, hparse⟩ := parse_of_pattern hw hd
    (by rw [pieces_assignedPattern hxs]; exact plain_assignedPieces ⟨hfor, hb.noOuter⟩)
    (check_patterns f body hxs).2
  -- Down to the lambda, and then up again with what each part means.
  obtain ⟨_, rfl, t₁, _, rfl, h₁, rfl⟩ := ht
  obtain ⟨t₂, h₂, hassign⟩ := assign_of_matches h₁
  obtain ⟨t₃, h₃, hlocal⟩ := local_of_matches h₂
  obtain ⟨t₄, h₄, hbinding⟩ := assign_of_matches h₃
  obtain ⟨p₆, e, he, hread⟩ := lambda_of_matches hxs hfor h₄
  obtain ⟨p₄, p₅, he⟩ := hbinding he
  obtain ⟨p₃, p₇, he⟩ := hlocal he
  obtain ⟨p₁, p₂, he⟩ := hassign he
  rw [hparse, Tree.apply, expr?, he]
  exact ⟨p₁, p₂, p₃, p₄, p₅, p₆, p₇, e, rfl, hread⟩

end

/-! ## Loops -/

/-- `for a; c; s do b` -/
def forPieces (a c s b : List Piece) : List Piece :=
  .word .for_ :: a ++ .mark .semicolon :: c ++ .mark .semicolon :: s ++ .word .do_ :: b

/-- `{ a; while c do { b; s } }` -/
def blockPieces (a c s b : List Piece) : List Piece :=
  .mark .lbrace :: a ++ .mark .semicolon :: .word .while_ :: c ++ .word .do_ ::
    .mark .lbrace :: b ++ .mark .semicolon :: s ++ [.mark .rbrace, .mark .rbrace]

/-- `{ k; l }` -/
def pairPattern (k l : Pattern) : Pattern :=
  .node .block [.token (.mark .lbrace),
    .node .sequenceMore [.node .sequenceOne [k], .token (.mark .semicolon), l],
    .token (.mark .rbrace)]

/-- `while c do k` -/
def whilePattern (c : List Piece) (k : Pattern) : Pattern :=
  .node .whileDo [.token (.word .while_), .phrase .expression c, .token (.word .do_), k]

def blockPattern (a c s b : List Piece) : Pattern :=
  pairPattern (.node .ofAssignment [.phrase .assignment a])
    (whilePattern c
      (pairPattern (.phrase .expression b) (.node .ofAssignment [.phrase .assignment s])))

section
variable {t : Tree} {k l : Pattern}

theorem pair_of_matches (ht : (pairPattern k l).Matches t) :
    ∃ u v, k.Matches u ∧ l.Matches v ∧ ∀ {A B : Expr}, u.expr? = some A → v.expr? = some B →
      ∃ p, t.expr? = some (.sequence p [A, B]) := by
  obtain ⟨_, rfl, _, _, rfl, -, _, _, rfl, ⟨_, rfl, _, _, rfl, ⟨_, rfl, u, _, rfl, hu, rfl⟩,
    _, _, rfl, -, v, _, rfl, hv, rfl⟩, _, _, rfl, -, rfl⟩ := ht
  refine ⟨u, v, hu, hv, fun hA hB => ?_⟩
  simp only [Tree.apply, expr?, sequence?, hA, hB]
  exact ⟨_, rfl⟩

theorem while_of_matches {c : List Piece} (ht : (whilePattern c k).Matches t) :
    ∃ u v, (Pattern.phrase .expression c).Matches u ∧ k.Matches v ∧
      ∀ {A B : Expr}, u.expr? = some A → v.expr? = some B →
        ∃ p, t.expr? = some (.whileDo p A B) := by
  obtain ⟨_, rfl, _, _, rfl, -, u, _, rfl, hu, _, _, rfl, -, v, _, rfl, hv, rfl⟩ := ht
  refine ⟨u, v, hu, hv, fun hA hB => ?_⟩
  rw [Tree.apply, expr?, hA, hB]
  exact ⟨_, rfl⟩

end

section
variable {a c s b : List Piece} {text : String} (ha : IsPhrase .assignment a)
  (hc : IsPhrase .expression c) (hs : IsPhrase .assignment s) (hb : IsPhrase .expression b)
include ha hc hs hb

/-- A `for` is never read. -/
theorem parse_for (hw : Written text (forPieces a c s b)) : parse text = .error .forLoop := by
  obtain ⟨hi, hps⟩ := hw
  have hkinds : (lex text).tokens.map (·.kind) = (forPieces a c s b).map (·.kind) := by
    rw [← hps, List.map_map]
    rfl
  have hd : Derives [.phrase .expression] ((forPieces a c s b).map (·.kind)) := by
    have hrule : Derives Rule.forLoop.rhs _ := .token (ha.derives.append
      (.token (hc.derives.append (.token (hs.derives.append (.token hb.derives))))))
    simpa [forPieces, Piece.word, Piece.mark, Rule.lhs] using hrule.rule
  have ho : ¬ outer <:+: (forPieces a c s b).map (·.kind) := by
    intro ho
    have hall : (forPieces a c s b).map (·.kind) = [] ++ .word .for_ :: (a.map (·.kind) ++
        .mark .semicolon :: (c.map (·.kind) ++ .mark .semicolon :: (s.map (·.kind) ++
          .word .do_ :: b.map (·.kind)))) := by
      simp [forPieces, Piece.word, Piece.mark]
    rw [hall] at ho
    rcases infix_of_append_cons ho (by decide) with ho | ho
    · simp at ho
    rcases infix_of_append_cons ho (by decide) with ho | ho
    · exact ha.noOuter ho
    rcases infix_of_append_cons ho (by decide) with ho | ho
    · exact hc.noOuter ho
    rcases infix_of_append_cons ho (by decide) with ho | ho
    · exact hs.noOuter ho
    · exact hb.noOuter ho
  refine parse_of_for hi (hkinds ▸ hd) ?_ (hkinds ▸ ho)
  rw [hkinds]
  simp [forPieces, Piece.word]

theorem parse_block (hfor : ∀ ps ∈ [a, c, s, b], .word .for_ ∉ ps.map (·.kind))
    (hw : Written text (blockPieces a c s b)) :
    ∃ p q r A C S B, parse text = .ok (some (.sequence p [A, .whileDo q C (.sequence r [B, S])])) ∧
      ReadsAs a A ∧ ReadsAs c C ∧ ReadsAs s S ∧ ReadsAs b B := by
  simp only [List.forall_mem_cons, List.not_mem_nil, false_implies, implies_true, and_true] at hfor
  obtain ⟨hfa, hfc, hfs, hfb⟩ := hfor
  have hpieces : (blockPattern a c s b).pieces = blockPieces a c s b := by
    simp [blockPattern, pairPattern, whilePattern, blockPieces]
  have hplain : Plain ((blockPieces a c s b).map (·.kind)) := by
    have hempty : Plain [] := plain_of_not_mem (by simp) (by simp)
    have hend := hempty.append_cons (k := .mark .rbrace) hempty (by decide)
    have hinner := hempty.append_cons (k := .mark .lbrace)
      (.append_cons (k := .mark .semicolon) ⟨hfb, hb.noOuter⟩
        (.append_cons (k := .mark .rbrace) ⟨hfs, hs.noOuter⟩ hend (by decide)) (by decide))
      (by decide)
    have hwhile := hempty.append_cons (k := .word .while_)
      (.append_cons (k := .word .do_) ⟨hfc, hc.noOuter⟩ hinner (by decide)) (by decide)
    have hall := hempty.append_cons (k := .mark .lbrace)
      (.append_cons (k := .mark .semicolon) ⟨hfa, ha.noOuter⟩ hwhile (by decide)) (by decide)
    simpa [blockPieces, Piece.word, Piece.mark] using hall
  have hd : (blockPattern a c s b).Derivable := by
    simp [blockPattern, pairPattern, whilePattern, ha.derives, hc.derives, hs.derives, hb.derives]
  have hcheck : (blockPattern a c s b).bare.check (some none) 0 = some 1 := by
    have hbare : (blockPattern a c s b).bare = (blockPattern [] [] [] []).bare := rfl
    rw [hbare]
    decide +kernel
  rw [← hpieces] at hw hplain
  obtain ⟨t, ht, hparse⟩ := parse_of_pattern hw hd hplain hcheck
  obtain ⟨_, _, h₁, h₂, houter⟩ := pair_of_matches ht
  obtain ⟨_, _, h₃, h₄, hwhile⟩ := while_of_matches h₂
  obtain ⟨_, _, h₅, h₆, hinner⟩ := pair_of_matches h₄
  obtain ⟨A, hA, hreadA⟩ := assignment_of_matches hfa h₁
  obtain ⟨C, hC, hreadC⟩ := reading_of_matches hfc h₃
  obtain ⟨B, hB, hreadB⟩ := reading_of_matches hfb h₅
  obtain ⟨S, hS, hreadS⟩ := assignment_of_matches hfs h₆
  obtain ⟨r, hinner⟩ := hinner hB hS
  obtain ⟨q, hwhile⟩ := hwhile hC hinner
  obtain ⟨p, houter⟩ := houter hA hwhile
  exact ⟨p, q, r, A, C, S, B, by rw [hparse, houter], hreadA, hreadC, hreadS, hreadB⟩

end

/-! ## What the forms do -/

section
variable {w : World} {scope : Nat} {e : Expr} {f : String} {xs : List String} {rest : Bool}

/-- The debugger stops at no expression but a `trap`. -/
def Debugger.Rests (d : Debugger) : Prop := d.stopped = true ∨ d.stepping = false

theorem Debugger.Rests.stopsAt_eq {d : Debugger} (hd : d.Rests) (he : ∀ p, e ≠ .trap p) :
    d.stopsAt (some e) = false := by
  rw [Debugger.stopsAt]
  · rcases hd with h | h
    · rw [h]
      rfl
    · rw [h]
      exact Bool.and_false _
  · intro p hp
    exact he p (Option.some.inj hp)

open Run ExceptT

theorem exec_eval (hd : w.debugger.Rests) (he : ∀ p, e ≠ .trap p) (room : Nat) :
    exec (eval (room + 1) e scope) w =
      exec (evalNode room (fun used => eval (room - used)) e scope) w := by
  rw [eval_succ, bind_assoc]
  show exec (_ >>= fun _ => _) w = _
  rw [exec_get_bind, hd.stopsAt_eq he]
  rfl

/-- Nothing can be bound to a bare name, wherever the debugger stops. -/
theorem letIn_bare_fails (room : Nat) (p q : Pos) (a b : Expr) (w : World) (v : Value)
    (u : World) : exec (eval room (.letIn p [⟨q, .bare f, a⟩] b) scope) w ≠ (.ok v, u) := by
  cases room with
  | zero =>
    intro h
    cases h
  | succ room =>
    rw [eval_succ, exec_bind]
    split
    · next u' _ =>
      intro h
      cases h
    · intro h
      cases h

theorem functionExpr_fails (p : Pos) (e : Expr) (w : World) (v : Value) (u : World) :
    exec (evalProgram (some (functionExpr p f xs e rest)) scope) w ≠ (.ok v, u) := by
  rw [evalProgram, depthLimit, functionExpr, eval_succ, exec_bind]
  split
  · next u' _ =>
    rw [evalNode, exec_bind]
    split
    · next v' u'' h =>
      exact absurd h (letIn_bare_fails _ _ _ _ _ _ _ _)
    · intro h
      cases h
  · intro h
    cases h

/-- Unless the debugger stops, the world is left as it was. -/
theorem exec_functionExpr (hd : w.debugger.Rests) (p : Pos) :
    exec (evalProgram (some (functionExpr p f xs e rest)) scope) w =
      (.error (.noAttribute "str" "name"), w) := by
  have hlet : ∀ a b, exec (eval 999 (.letIn p [⟨p, .bare f, a⟩] b) scope) w =
      (.error (.noAttribute "str" "name"), w) := by
    intro a b
    rw [exec_eval hd (fun _ => Expr.noConfusion) 998]
    rfl
  rw [evalProgram, depthLimit, functionExpr, exec_eval hd (fun _ => Expr.noConfusion) 999, evalNode,
    exec_bind, hlet]

/-- The scopes after `f = local f = v in f`. -/
def assignedScopes (scopes : Forest Value Nat) (scope : Nat) (f : String) (v : Value) :
    Forest Value Nat :=
  ((scopes.push scope [f] .null).2.set scopes.size f v).set scope f v

/-- The name is bound to the function, and all others are as they were. -/
theorem get?_assignedScopes {scopes : Forest Value Nat} (hs : scope < scopes.size) (f : String)
    (v : Value) : (assignedScopes scopes scope f v).get? scope f = some v ∧
      ∀ y ≠ f, (assignedScopes scopes scope f v).get? scope y = scopes.get? scope y := by
  have hsize : ((scopes.push scope [f] .null).2.set scopes.size f v).size = scopes.size + 1 := by
    rw [Forest.set, Forest.size_bind, Forest.size_push]
  refine ⟨Forest.get?_set_self (by omega), fun y hy => ?_⟩
  rw [assignedScopes, Forest.get?_set_ne hy, Forest.get?_set_ne hy, Forest.get?, Forest.get?,
    (Forest.push_kept ..).grown.home_eq y scope hs, (Forest.push_kept ..).vars]
  exact (scopes.home_le y scope).trans_lt hs

theorem exec_assign_lambda (hd : w.debugger.Rests) (room : Nat) (p q r : Pos) :
    exec (eval (room + 2) (.assign p (.var q f) (.lambda r xs e rest)) scope) w =
      (.ok (.closure scope xs e rest none),
        { w with scopes := w.scopes.set scope f (.closure scope xs e rest none) }) := by
  rw [exec_eval hd (fun _ => Expr.noConfusion), evalNode, exec_bind, Nat.sub_zero,
    exec_eval hd (fun _ => Expr.noConfusion)]
  rfl

/-- A name that its own scope binds is asked for in one call. -/
theorem exec_var (hd : w.debugger.Rests) (hf : (w.scopes.vars scope).has f = true) {v : Value}
    (hv : w.scopes.get? scope f = some v) (room : Nat) (p : Pos) :
    exec (eval (room + 2) (.var p f) scope) w = (.ok v, w) := by
  have hworld : exec Run.world w = (.ok w, w) := rfl
  have hlookup : w.scopes.lookup (room + 1) scope f = .ok (some v) := by
    rw [Forest.lookup, Forest.has?, if_pos hf]
    dsimp only
    rw [hv]
    rfl
  rw [exec_eval hd (fun _ => Expr.noConfusion), evalNode, liftM_eq, exec_bind, hworld]
  dsimp only
  rw [liftM_eq, hlookup]
  rfl

/-- The function is bound in a scope of its own, and is what the whole means. -/
theorem exec_letIn_lambda (hd : w.debugger.Rests) (room : Nat) (p₃ p₄ p₅ p₆ p₇ : Pos) :
    exec (eval (room + 3) (.letIn p₃ [⟨p₄, .var p₅ f, .lambda p₆ xs e rest⟩] (.var p₇ f)) scope) w =
      (.ok (.closure w.scopes.size xs e rest none), { w with
        scopes := (w.scopes.push scope [f] .null).2.set w.scopes.size f
          (.closure w.scopes.size xs e rest none) }) := by
  have hnames : [(⟨p₄, .var p₅ f, .lambda p₆ xs e rest⟩ : Binding Expr)].mapM
      (fun b => b.target.bound) = .ok [f] := rfl
  have hpush : exec (Run.push scope [f]) w = (.ok w.scopes.size,
      { w with scopes := (w.scopes.push scope [f] .null).2 }) := rfl
  rw [exec_eval hd (fun _ => Expr.noConfusion), evalNode, hnames, liftM_eq, exec_bind, exec_ofExcept]
  dsimp only
  rw [liftM_eq, exec_bind, hpush]
  simp only [List.forIn_cons, List.forIn_nil, bind_assoc, pure_bind]
  rw [exec_bind, Nat.sub_zero, exec_assign_lambda (by exact hd)]
  have hsize : w.scopes.size < (w.scopes.push scope [f] .null).2.size := by
    rw [Forest.size_push]
    exact Nat.lt_succ_self _
  have hown : ((w.scopes.push scope [f] .null).2.vars w.scopes.size).has f = true := by
    rw [Forest.has_vars_push]
    simp
  refine exec_var (by exact hd) ?_ (Forest.get?_set_self hsize) room p₇
  rw [Forest.set_eq_bind hown, Forest.vars_bind_self hsize, Bindings.has_set]
  simp

/-- The long form binds the function. -/
theorem exec_assigned (hd : w.debugger.Rests) (p₁ p₂ p₃ p₄ p₅ p₆ p₇ : Pos) :
    exec (evalProgram (some (.assign p₁ (.var p₂ f)
      (.letIn p₃ [⟨p₄, .var p₅ f, .lambda p₆ xs e rest⟩] (.var p₇ f)))) scope) w =
      (.ok (.closure w.scopes.size xs e rest none), { w with
        scopes := assignedScopes w.scopes scope f (.closure w.scopes.size xs e rest none) }) := by
  rw [evalProgram, depthLimit, exec_eval hd (fun _ => Expr.noConfusion) 999, evalNode, exec_bind,
    exec_letIn_lambda hd 996]
  rfl

end

/-! ## Neither form is the longer one -/

/-- **`fun` and `for` do not stand for what they should.**  Whatever the name, the parameters and
the body are, a function that is written with `fun` has no value: as long as the debugger does not
stop, it fails on the bare name and changes nothing.  The long form has the function as its value
and binds the name to it, and to nothing else.

Whatever its parts are, a text with a `for` is no program, while the block is read, with the parts
in their places. -/
theorem sugar_fails (f : String) (xs : List String) (rest : Bool) (body a c s b : List Piece)
    (short long loop block : String) :
    ((rest = true → xs ≠ []) → IsPhrase .expression body → .word .for_ ∉ body.map (·.kind) →
      Written short (functionPieces f xs rest body) →
      Written long (assignedPieces f xs rest body) →
      (∃ p e, parse short = .ok (some (functionExpr p f xs e rest)) ∧ ReadsAs body e ∧
        ∀ (w : World) (scope : Nat),
          let result := (evalProgram (some (functionExpr p f xs e rest)) scope).exec w
          (∀ v u, result ≠ (.ok v, u)) ∧
          (w.debugger.Rests → result = (.error (.noAttribute "str" "name"), w))) ∧
      ∃ m e, parse long = .ok (some m) ∧ ReadsAs body e ∧ ∀ (w : World) (scope : Nat),
        w.debugger.Rests → scope < w.scopes.size →
        let v := Value.closure w.scopes.size xs e rest none
        ∃ u, (evalProgram (some m) scope).exec w = (.ok v, u) ∧ u.scopes.get? scope f = some v ∧
          ∀ y ≠ f, u.scopes.get? scope y = w.scopes.get? scope y) ∧
    (IsPhrase .assignment a → IsPhrase .expression c → IsPhrase .assignment s →
      IsPhrase .expression b → Written loop (forPieces a c s b) →
      Written block (blockPieces a c s b) →
      parse loop = .error .forLoop ∧
      ((∀ ps ∈ [a, c, s, b], .word .for_ ∉ ps.map (·.kind)) →
        ∃ p q r A C S B, ReadsAs a A ∧ ReadsAs c C ∧ ReadsAs s S ∧ ReadsAs b B ∧
          parse block = .ok (some (.sequence p [A, .whileDo q C (.sequence r [B, S])])))) := by
  constructor
  · intro hxs hb hfor hshort hlong
    constructor
    · obtain ⟨p, e, hparse, hread⟩ := parse_function hxs hb hfor hshort
      refine ⟨p, e, hparse, hread, fun w scope => ⟨fun v u => ?_, fun hd => ?_⟩⟩
      · exact functionExpr_fails p e w v u
      · exact exec_functionExpr hd p
    · obtain ⟨p₁, p₂, p₃, p₄, p₅, p₆, p₇, e, hparse, hread⟩ := parse_assigned hxs hb hfor hlong
      refine ⟨_, e, hparse, hread, fun w scope hd hs => ⟨_, exec_assigned hd p₁ p₂ p₃ p₄ p₅ p₆ p₇, ?_⟩⟩
      exact get?_assignedScopes hs f _
  · intro ha hc hs hb hloop hblock
    refine ⟨parse_for ha hc hs hb hloop, fun hfor => ?_⟩
    obtain ⟨p, q, r, A, C, S, B, hparse, hA, hC, hS, hB⟩ := parse_block ha hc hs hb hfor hblock
    exact ⟨p, q, r, A, C, S, B, hA, hC, hS, hB, hparse⟩

theorem written_spell {text : String} {ps : List Piece} (h : ps.all Piece.valid = true)
    (ht : String.ofList (spell ps) = text) : Written text ps := by
  rw [← ht]
  exact lex_spell h

/-- The identity, and a loop that counts. -/
theorem sugar_fails_identity_and_count :
    (∃ p e, parse "FUN f x -> x" = .ok (some (functionExpr p "f" ["x"] e false)) ∧
      ∀ w scope v u, (evalProgram (some (functionExpr p "f" ["x"] e false)) scope).exec w ≠
        (.ok v, u)) ∧
    (∃ m, parse "f = LOCAL f = \\ x -> x IN f" = .ok (some m)) ∧
    parse "FOR i = 0 ; i < 3 ; i = i + 1 DO y = i" = .error .forLoop ∧
    ∃ m, parse "{ i = 0 ; WHILE i < 3 DO { y = i ; i = i + 1 } }" = .ok (some m) := by
  have hname : Derives [.phrase .expression] [.ident] := .rule (r := .var) (.token .nil)
  have hnumber : Derives [.phrase .expression] [.number] := .rule (r := .number) (.token .nil)
  have hsum : Derives [.phrase .expression] [.ident, .mark .plus, .number] :=
    .rule (r := .binary .plus) (hname.append (.token hnumber))
  have hx : IsPhrase .expression [.name "x"] := ⟨hname, by decide⟩
  have ha : IsPhrase .assignment [.name "i", .mark .assign, ⟨.number, "0"⟩] :=
    ⟨.rule (r := .assignment) (.token (.token hnumber)), by decide⟩
  have hc : IsPhrase .expression [.name "i", .mark .lt, ⟨.number, "3"⟩] :=
    ⟨.rule (r := .binary .lt) (hname.append (.token hnumber)), by decide⟩
  have hs : IsPhrase .assignment
      [.name "i", .mark .assign, .name "i", .mark .plus, ⟨.number, "1"⟩] :=
    ⟨.rule (r := .assignment) (.token (.token hsum)), by decide⟩
  have hb : IsPhrase .expression [.name "y", .mark .assign, .name "i"] :=
    ⟨.rule (r := .ofAssignment) (.rule (r := .assignment) (.token (.token hname))), by decide⟩
  obtain ⟨hfun, hfor⟩ := sugar_fails "f" ["x"] false _ _ _ _ _ _ _ _ _
  obtain ⟨⟨p, e, hp, -, hfails⟩, m, -, hm, -⟩ := hfun (by simp) hx (by decide)
    (written_spell (by decide +kernel) rfl) (written_spell (by decide +kernel) rfl)
  obtain ⟨hl, hread⟩ := hfor ha hc hs hb
    (written_spell (by decide +kernel) rfl) (written_spell (by decide +kernel) rfl)
  obtain ⟨p', q, r, A, C, S, B, -, -, -, -, hparse⟩ := hread (by decide)
  exact ⟨⟨p, e, hp, fun w scope => (hfails w scope).1⟩, ⟨m, hm⟩, hl, _, hparse⟩

end ExprLang
