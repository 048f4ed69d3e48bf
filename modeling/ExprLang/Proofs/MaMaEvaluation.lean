/-
  Evaluation with integers and functions.

  These are the rules of evaluation for the functional part of the language.  The only values are
  integers without bounds and functions, which keep the scope they were made in.  A name that has
  not been given a value yet is bound to nothing: an expression that reads it has no value, and
  neither has a call with too few or too many arguments.

  `Free` says which variables an expression needs from outside, and `Admissible` which expressions
  the machine is meant for.
-/
import ExprLang.Proofs.Words
import ExprLang.Proofs.Scopes
import ExprLang.MaMa.FreeVars

namespace ExprLang.MaMa

/-- Values. -/
inductive Val where
  | int (n : Int)
  /-- A function with the scope it was made in. -/
  | closure (scope : Nat) (params : List String) (body : Expr)

/-- Scopes whose names may have no value yet. -/
abbrev Scopes := Forest (Option Val) Nat

/-- Gives the names of a scope their values, one after the other. -/
def bindAll (f : Scopes) (id : Nat) : List String → List Val → Scopes
  | x :: xs, v :: vs => bindAll (f.set id x (some v)) id xs vs
  | _, _ => f

abbrev boundNames (bs : List (Binding Expr)) : List String := bs.map (·.target.name)

/-! ## Rules -/

mutual

/-- Evaluated in a scope, the expression gives a value and perhaps adds scopes. -/
inductive Evaluates : Scopes → Nat → Expr → Val → Scopes → Prop where
  | number {f id p text n} (h : integer? text = some n) :
      Evaluates f id (.number p text) (.int n) f
  | unary {f id p op a v o f'} (ha : Evaluates f id a (.int v) f')
      (ho : op.onIntegers? = some o) : Evaluates f id (.unary p op a) (.int (o v)) f'
  | binary {f id p op a b v w o f₁ f₂} (ha : Evaluates f id a (.int v) f₁)
      (hb : Evaluates f₁ id b (.int w) f₂) (ho : op.onIntegers? = some o) :
      Evaluates f id (.binary p op a b) (.int (o v w)) f₂
  | var {f id p x v} (h : f.get? id x = some (some v)) : Evaluates f id (.var p x) v f
  | ifTrue {f id p c a b k v f₁ f₂} (hc : Evaluates f id c (.int k) f₁) (hk : k ≠ 0)
      (ha : Evaluates f₁ id a v f₂) : Evaluates f id (.ifThen p c a b) v f₂
  | ifFalse {f id p c a b v f₁ f₂} (hc : Evaluates f id c (.int 0) f₁)
      (hb : Evaluates f₁ id b v f₂) : Evaluates f id (.ifThen p c a (some b)) v f₂
  | letIn {f id p bs a v f₁ f₂}
      (hb : Initialises (f.push id (boundNames bs) none).2 (f.push id (boundNames bs) none).1 bs f₁)
      (ha : Evaluates f₁ (f.push id (boundNames bs) none).1 a v f₂) :
      Evaluates f id (.letIn p bs a) v f₂
  | lambda {f id p params a} :
      Evaluates f id (.lambda p params a false) (.closure id params a) f
  | call {f id p e args k params body vs v f₁ g f₂}
      (he : Evaluates f id e (.closure k params body) f₁)
      (hargs : EvaluatesAll f₁ id args vs g) (hlen : vs.length = params.length)
      (hbody : Evaluates (bindAll (g.push k params none).2 (g.push k params none).1 params vs)
        (g.push k params none).1 body v f₂) : Evaluates f id (.call p e args) v f₂

inductive EvaluatesAll : Scopes → Nat → List Expr → List Val → Scopes → Prop where
  | nil {f id} : EvaluatesAll f id [] [] f
  | cons {f id a as v vs f₁ f₂} (ha : Evaluates f id a v f₁)
      (h : EvaluatesAll f₁ id as vs f₂) : EvaluatesAll f id (a :: as) (v :: vs) f₂

/-- Gives the names of a scope the values of their bindings, one after the other. -/
inductive Initialises : Scopes → Nat → List (Binding Expr) → Scopes → Prop where
  | nil {f id} : Initialises f id [] f
  | cons {f id p q x a bs v g f'} (ha : Evaluates f id a v g)
      (h : Initialises (g.set id x (some v)) id bs f') :
      Initialises f id (⟨p, .var q x, a⟩ :: bs) f'

end

theorem EvaluatesAll.length_eq : ∀ {f : Scopes} {id : Nat} {es : List Expr} {vs : List Val}
    {f' : Scopes}, EvaluatesAll f id es vs f' → es.length = vs.length
  | _, _, _, _, _, .nil => rfl
  | _, _, _, _, _, .cons _ h => congrArg (· + 1) h.length_eq

/-! ## Free variables -/

/-- The variable `x` is needed from outside of an expression. -/
inductive Free (x : String) : Expr → Prop where
  | unary {p op a} (h : Free x a) : Free x (.unary p op a)
  | left {p op a b} (h : Free x a) : Free x (.binary p op a b)
  | right {p op a b} (h : Free x b) : Free x (.binary p op a b)
  | var {p} : Free x (.var p x)
  | condition {p c a b} (h : Free x c) : Free x (.ifThen p c a b)
  | yes {p c a b} (h : Free x a) : Free x (.ifThen p c a b)
  | no {p c a b} (h : Free x b) : Free x (.ifThen p c a (some b))
  | binding {p bs a b} (hx : x ∉ boundNames bs) (hb : b ∈ bs) (h : Free x b.value) :
      Free x (.letIn p bs a)
  | body {p bs a} (hx : x ∉ boundNames bs) (h : Free x a) : Free x (.letIn p bs a)
  | lambda {p params a rest} (hx : x ∉ params) (h : Free x a) : Free x (.lambda p params a rest)
  | callee {p e args} (h : Free x e) : Free x (.call p e args)
  | argument {p e args a} (ha : a ∈ args) (h : Free x a) : Free x (.call p e args)

def FreeVarsExact (e : Expr) : Prop := ∃ names, freeVars e = .ok names ∧ ∀ x, x ∈ names ↔ Free x e

/-- Expressions that the machine is meant for: the names of every `local` differ, and the free
variables of every function are listed exactly. -/
inductive Admissible : Expr → Prop where
  | number {p text} : Admissible (.number p text)
  | unary {p op a} (ha : Admissible a) : Admissible (.unary p op a)
  | binary {p op a b} (ha : Admissible a) (hb : Admissible b) : Admissible (.binary p op a b)
  | var {p x} : Admissible (.var p x)
  | ifThen {p c a b} (hc : Admissible c) (ha : Admissible a) (hb : Admissible b) :
      Admissible (.ifThen p c a (some b))
  | letIn {p bs a} (hn : (boundNames bs).Nodup) (hb : ∀ b ∈ bs, Admissible b.value)
      (ha : Admissible a) : Admissible (.letIn p bs a)
  | lambda {p params a} (hx : FreeVarsExact (.lambda p params a false)) (ha : Admissible a) :
      Admissible (.lambda p params a false)
  | call {p e args} (he : Admissible e) (ha : ∀ a ∈ args, Admissible a) :
      Admissible (.call p e args)

/-! ## Scopes stay -/

theorem bindAll_keptBut {id : Nat} : ∀ {f : Scopes} {xs : List String} {vs : List Val},
    id < f.size → (∀ x ∈ xs, (f.vars id).has x = true) → f.KeptBut id (bindAll f id xs vs)
  | f, [], _, _, _ => by rw [bindAll]; exact .refl id f; simp
  | f, _ :: _, [], _, _ => by rw [bindAll]; exact .refl id f; simp
  | f, x :: xs, v :: vs, hid, hx => by
    have hb : f.KeptBut id (f.set id x (some v)) := Forest.set_keptBut hid (hx x (by simp))
    rw [bindAll]
    refine hb.trans (bindAll_keptBut (hid.trans_le hb.size_le) fun y hy => ?_)
    rw [hb.has id hid]
    exact hx y (by simp [hy])

theorem push_has (f : Scopes) (id : Nat) {names : List String} {x : String} (hx : x ∈ names) :
    ((f.push id names none).2.vars f.size).has x = true := by
  rw [Forest.has_vars_push]; exact decide_eq_true hx

theorem lt_size_push (f : Scopes) (id : Nat) (names : List String) :
    f.size < (f.push id names none).2.size := by
  rw [Forest.size_push]; exact Nat.lt_succ_self _

theorem push_bindAll_kept (f : Scopes) (id : Nat) (xs : List String) (vs : List Val) :
    f.Kept (bindAll (f.push id xs none).2 f.size xs vs) :=
  (f.push_kept id xs none).trans_keptBut
    (bindAll_keptBut (lt_size_push f id xs) fun _ h => push_has f id h)

mutual

/-- **Evaluation changes no scope that was there before.** -/
theorem Evaluates.kept : ∀ {f : Scopes} {id : Nat} {e : Expr} {v : Val} {f' : Scopes},
    Evaluates f id e v f' → f.Kept f'
  | f, _, _, _, _, .number _ => .refl f
  | _, _, _, _, _, .unary ha _ => ha.kept
  | _, _, _, _, _, .binary ha hb _ => ha.kept.trans hb.kept
  | f, _, _, _, _, .var _ => .refl f
  | _, _, _, _, _, .ifTrue hc _ ha => hc.kept.trans ha.kept
  | _, _, _, _, _, .ifFalse hc hb => hc.kept.trans hb.kept
  | f, id, .letIn _ bs _, _, _, .letIn hb ha => by
    have hk := hb.keptBut (lt_size_push f id _) fun b h => push_has f id (List.mem_map_of_mem h)
    exact ((f.push_kept id _ none).trans_keptBut hk).trans ha.kept
  | f, _, _, _, _, .lambda => .refl f
  | f, _, _, _, _, .call (k := k) (g := g) he hargs _ hbody => by
    exact (he.kept.trans hargs.kept).trans ((push_bindAll_kept g k _ _).trans hbody.kept)

theorem EvaluatesAll.kept : ∀ {f : Scopes} {id : Nat} {es : List Expr} {vs : List Val}
    {f' : Scopes}, EvaluatesAll f id es vs f' → f.Kept f'
  | f, _, _, _, _, .nil => .refl f
  | _, _, _, _, _, .cons ha h => ha.kept.trans h.kept

theorem Initialises.keptBut : ∀ {f : Scopes} {id : Nat} {bs : List (Binding Expr)} {f' : Scopes},
    Initialises f id bs f' → id < f.size →
    (∀ b ∈ bs, (f.vars id).has b.target.name = true) → f.KeptBut id f'
  | f, id, _, _, .nil, _, _ => .refl id f
  | f, id, _, _, .cons (x := x) (v := v) (g := g) ha h, hid, hx => by
    have hid' : id < g.size := hid.trans_le ha.kept.size_le
    have hx' : (g.vars id).has x = true := by
      rw [ha.kept.vars hid]; exact hx _ (List.mem_cons_self ..)
    have hb : g.KeptBut id (g.set id x (some v)) := Forest.set_keptBut hid' hx'
    refine ((ha.kept.keptBut id).trans hb).trans (h.keptBut (hid'.trans_le hb.size_le) ?_)
    intro b hmem
    rw [hb.has id hid', ha.kept.vars hid]
    exact hx b (List.mem_cons_of_mem _ hmem)

end

end ExprLang.MaMa
