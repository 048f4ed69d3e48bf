/-
  Trees and what they derive.

  A tree is well formed when the children of every node are what its rule consists of
  (`Tree.Ok`).  Well-formed trees are derivations: the kinds of their tokens can be derived from
  their symbols (`derives_of_ok`), and whatever can be derived has such trees (`ok_of_derives`).

  `means_of_ok`: a well-formed tree without `for` stands for something.
-/
import ExprLang.Grammar.Meaning

namespace ExprLang.Grammar

namespace Tree

/-- Every node has the children that its rule asks for. -/
inductive Ok : Tree → Prop where
  | leaf (t : Token) : Ok (leaf t)
  | node {r : Rule} {ls : Lines} {ts : List Tree} (hr : r ≠ .start)
      (hs : ts.map symbol = r.rhs) (h : ∀ t ∈ ts, Ok t) : Ok (node r ls ts)

def kinds (t : Tree) : List Kind := t.tokens.map (·.kind)

def kindsOf (ts : List Tree) : List Kind := (tokensOf ts).map (·.kind)

@[simp] theorem symbol_leaf (t : Token) : (leaf t).symbol = .token t.kind := rfl

@[simp] theorem symbol_node (r : Rule) (ls : Lines) (ts : List Tree) :
    (node r ls ts).symbol = .phrase r.lhs := rfl

@[simp] theorem tokens_leaf (t : Token) : (leaf t).tokens = [t] := rfl

@[simp] theorem tokens_node (r : Rule) (ls : Lines) (ts : List Tree) :
    (node r ls ts).tokens = tokensOf ts := rfl

@[simp] theorem tokensOf_nil : tokensOf [] = [] := rfl

@[simp] theorem tokensOf_cons (t : Tree) (ts : List Tree) :
    tokensOf (t :: ts) = t.tokens ++ tokensOf ts := rfl

@[simp] theorem tokensOf_append : ∀ ts us : List Tree,
    tokensOf (ts ++ us) = tokensOf ts ++ tokensOf us
  | [], _ => rfl
  | t :: ts, us => by simp [tokensOf_append ts us]

@[simp] theorem kinds_leaf (t : Token) : (leaf t).kinds = [t.kind] := rfl

@[simp] theorem kinds_node (r : Rule) (ls : Lines) (ts : List Tree) :
    (node r ls ts).kinds = kindsOf ts := rfl

@[simp] theorem kindsOf_nil : kindsOf [] = [] := rfl

@[simp] theorem kindsOf_cons (t : Tree) (ts : List Tree) :
    kindsOf (t :: ts) = t.kinds ++ kindsOf ts := by simp [kindsOf, kinds]

@[simp] theorem kindsOf_append (ts us : List Tree) :
    kindsOf (ts ++ us) = kindsOf ts ++ kindsOf us := by simp [kindsOf]

theorem mem_kindsOf {t : Tree} {k : Kind} :
    ∀ {ts : List Tree}, t ∈ ts → k ∈ t.kinds → k ∈ kindsOf ts
  | u :: us, ht, hk => by
    rw [kindsOf_cons, List.mem_append]
    rcases List.mem_cons.1 ht with rfl | ht
    · exact .inl hk
    · exact .inr (mem_kindsOf ht hk)

theorem eq_leaf {t : Tree} {k : Kind} (h : t.symbol = .token k) :
    ∃ tok : Token, t = leaf tok ∧ tok.kind = k := by
  cases t with
  | leaf tok => exact ⟨tok, rfl, by simpa [symbol] using h⟩
  | node r ls ts => cases h

end Tree

open ExprLang.Grammar.Tree

theorem kinds_dots {t : Tree} (h : t.Ok) :
    t.symbol = .phrase .dots → ∃ n, t.kinds = List.replicate (n + 1) (.mark .dot) := by
  induction h with
  | leaf t => intro h; cases h
  | @node r ls ts _ hs _ ih =>
    intro h
    cases r <;> simp only [symbol_node, Rule.lhs, Symbol.phrase.injEq, reduceCtorEq] at h
    case dotsOne =>
      obtain ⟨a, as, rfl, ha, hnil⟩ := List.map_eq_cons_iff.1 hs
      obtain ⟨tok, rfl, hk⟩ := eq_leaf ha
      exact ⟨0, by simp [List.map_eq_nil_iff.1 hnil, hk]⟩
    case dotsMore =>
      obtain ⟨a, as, rfl, ha, hrest⟩ := List.map_eq_cons_iff.1 hs
      obtain ⟨b, bs, rfl, hb, hnil⟩ := List.map_eq_cons_iff.1 hrest
      obtain ⟨tok, rfl, hk⟩ := eq_leaf ha
      obtain ⟨n, hn⟩ := ih b (by simp) hb
      exact ⟨n + 1, by simp [List.map_eq_nil_iff.1 hnil, hk, hn, List.replicate_succ]⟩

/-! ## Derivations -/

theorem Derives.append {x : Symbol} {ss : List Symbol} {ks ls : List Kind}
    (h : Derives [x] ks) (h' : Derives ss ls) : Derives (x :: ss) (ks ++ ls) := by
  cases h with
  | token h => cases h; exact .token h'
  | phrase h hn => cases hn; simpa using .phrase h h'

theorem Derives.rule {r : Rule} {ks : List Kind} (h : Derives r.rhs ks) :
    Derives [.phrase r.lhs] ks := by simpa using Derives.phrase h .nil

theorem derives_of_forall : ∀ {ts : List Tree}, (∀ t ∈ ts, Derives [t.symbol] t.kinds) →
    Derives (ts.map symbol) (kindsOf ts)
  | [], _ => .nil
  | t :: ts, h => by
    rw [List.map_cons, kindsOf_cons]
    exact (h t (List.mem_cons_self ..)).append
      (derives_of_forall fun u hu => h u (List.mem_cons_of_mem t hu))

theorem derives_of_ok {t : Tree} (h : t.Ok) : Derives [t.symbol] t.kinds := by
  induction h with
  | leaf t => exact .token .nil
  | node _ hs _ ih =>
    have hbody := derives_of_forall ih
    rw [hs] at hbody
    exact hbody.rule

theorem ok_of_derives {ss : List Symbol} {ks : List Kind} (h : Derives ss ks) :
    ∃ ts : List Tree, ts.map symbol = ss ∧ (∀ t ∈ ts, t.Ok) ∧ kindsOf ts = ks := by
  induction h with
  | nil => exact ⟨[], rfl, by simp, rfl⟩
  | @token k ss ks _ ih =>
    obtain ⟨ts, hs, hok, hk⟩ := ih
    refine ⟨leaf ⟨k, "", 0, 0⟩ :: ts, by simp [symbol, hs], ?_, by simp [hk]⟩
    exact List.forall_mem_cons.2 ⟨.leaf _, hok⟩
  | @phrase r ss ks ls _ _ ihb ihr =>
    obtain ⟨us, hus, huok, huk⟩ := ihb
    obtain ⟨ts, hs, hok, hk⟩ := ihr
    by_cases hr : r = .start
    · -- The rule for the whole text adds nothing to the tree below it.
      subst hr
      obtain ⟨u, rfl⟩ : ∃ u, us = [u] :=
        List.length_eq_one_iff.1 (by simpa [Rule.rhs] using congrArg List.length hus)
      refine ⟨u :: ts, ?_, List.forall_mem_cons.2 ⟨huok u (by simp), hok⟩, by simpa [hk] using huk⟩
      rw [List.map_cons, hs]
      exact congrArg (· :: ss) (List.cons.inj hus).1
    · refine ⟨node r ⟨0, 0⟩ us :: ts, by simp [symbol, hs], ?_, by simp [huk, hk]⟩
      exact List.forall_mem_cons.2 ⟨.node hr hus huok, hok⟩

/-! ## Meaning -/

/-- A tree stands for something of the sort that its symbol asks for. -/
def Tree.Means (t : Tree) : Prop :=
  match t.symbol with
  | .token _ => t.text?.isSome
  | .phrase .expression => t.expr?.isSome
  | .phrase .assignment => t.assignment?.isSome
  | .phrase .memberAssignment => t.memberAssignment?.isSome
  | .phrase .sequence => t.sequence?.isSome
  | .phrase .names => t.names?.isSome
  | .phrase .arguments => t.arguments?.isSome
  | .phrase .bindings => t.bindings?.isSome
  | .phrase .dots => t.dots?.isSome
  | .phrase .entry => t.entry?.isSome
  | .phrase .entries => t.entries?.isSome
  | .phrase .field => t.field?.isSome
  | .phrase .fields => t.fields?.isSome

theorem means_node {r : Rule} {ls : Lines} {ts : List Tree} (hr : r ≠ .start) (hf : r ≠ .forLoop)
    (hs : ts.map symbol = r.rhs) (h : ∀ t ∈ ts, t.Means) : (node r ls ts).Means := by
  cases r <;> simp only [Rule.rhs, List.map_eq_cons_iff, List.map_eq_nil_iff] at hs
  -- The children, one after the other, with what they stand for.
  all_goals
    repeat
      obtain ⟨_, _, rfl, hsym, hs⟩ := hs
      obtain ⟨hm, h⟩ := List.forall_mem_cons.1 h
      simp only [Means, hsym, Option.isSome_iff_exists] at hm
      obtain ⟨_, hm⟩ := hm
    subst hs
    simp only [Means, Rule.lhs, symbol_node]
  case start => exact absurd rfl hr
  case forLoop => exact absurd rfl hf
  all_goals first
    | rw [expr?]; simp [*]
    | simp [dots?, names?, assignment?, memberAssignment?, sequence?, arguments?, bindings?, entry?,
        entries?, field?, fields?, *]

/-- A well-formed tree without `for` stands for something. -/
theorem means_of_ok {t : Tree} (h : t.Ok) : .word .for_ ∉ t.kinds → t.Means := by
  induction h with
  | leaf t => exact fun _ => rfl
  | @node r ls ts hr hs _ ih =>
    intro hf
    have hparts : ∀ t ∈ ts, .word .for_ ∉ t.kinds := fun t ht hk => hf (mem_kindsOf ht hk)
    refine means_node hr ?_ hs fun t ht => ih t ht (hparts t ht)
    rintro rfl
    obtain ⟨a, as, rfl, ha, -⟩ := List.map_eq_cons_iff.1 hs
    obtain ⟨tok, rfl, hk⟩ := eq_leaf ha
    exact hparts _ (List.mem_cons_self ..) (by simp [hk])

end ExprLang.Grammar
