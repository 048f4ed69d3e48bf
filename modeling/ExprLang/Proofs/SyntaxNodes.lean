/-
  The nodes of expressions.

  The bindings of a `local`, the initialisers of a struct and the targets of assignments are nodes
  with positions of their own, except for bare targets.

  * `Expr.HasNode e x`: `x` is `e` or a node somewhere below it;
  * `Expr.mapPos f e` changes the position of every node, and nothing else;
  * `e.FitsIn room`: at most `room` nodes of `e` are nested, so that many calls are enough to visit
    them all;
  * `Expr.within_eq`: without bare targets, an expression is put into a file by changing all its
    positions, if there is enough room for that.
-/
import ExprLang.Expr

namespace ExprLang

/-! ## Nodes -/

def Binding.node (b : Binding Expr) : Expr := .assign b.pos b.target b.value

def Field.node (f : Field Expr) : Expr := .memberAssign f.pos f.name f.value

def Target.nodes : Target → List Expr
  | var p x => [.var p x]
  | bare _ => []

namespace Expr

/-- The nodes right below the topmost one. -/
def children : Expr → List Expr
  | number .. | bool .. | string .. | char .. | var .. | this .. | importFile .. | trap .. => []
  | array _ es | sequence _ es => es
  | dict _ es => es.flatMap fun e => [e.1, e.2]
  | unary _ _ a | lock _ _ a | lambda _ _ a _ | proc _ _ _ a | member _ a _ _
  | memberAssign _ _ a => [a]
  | binary _ _ a b | index _ a b | loop _ a b | whileDo _ a b | doWhile _ a b => [a, b]
  | assign _ x a => x.nodes ++ [a]
  | letIn _ bs a => bs.map Binding.node ++ [a]
  | ifThen _ a b c => a :: b :: c.toList
  | call _ f as => f :: as
  | struct _ fs parent => parent.toList ++ fs.map Field.node

/-- `x` is a node of `e`. -/
inductive HasNode (e : Expr) : Expr → Prop where
  | self : HasNode e e
  | child {x y : Expr} (h : HasNode e x) (hy : y ∈ x.children) : HasNode e y

theorem HasNode.trans {e x y : Expr} (h : e.HasNode x) (hy : x.HasNode y) : e.HasNode y := by
  induction hy with
  | self => exact h
  | child _ hz ih => exact ih.child hz

theorem HasNode.of_child {e a x : Expr} (ha : a ∈ e.children) (h : a.HasNode x) : e.HasNode x :=
  (HasNode.self.child ha).trans h

theorem HasNode.self_or_child {e x : Expr} (h : e.HasNode x) :
    x = e ∨ ∃ a ∈ e.children, a.HasNode x := by
  induction h with
  | self => exact .inl rfl
  | child _ hy ih =>
    obtain rfl | ⟨a, ha, h⟩ := ih
    · exact .inr ⟨_, hy, .self⟩
    · exact .inr ⟨a, ha, h.child hy⟩

/-- The node is a variable. -/
def isVar : Expr → Bool
  | var .. => true
  | _ => false

def isNumber : Expr → Bool
  | number .. => true
  | _ => false

theorem HasNode.eq_of_isVar {e x : Expr} (h : e.HasNode x) (hv : e.isVar = true) : x = e := by
  obtain rfl | ⟨a, ha, -⟩ := h.self_or_child
  · rfl
  · cases e with
    | var => cases ha
    | _ => cases hv

/-! ## Changing positions -/

mutual

/-- The expression with the position of every node changed. -/
def mapPos (f : Pos → Pos) : Expr → Expr
  | .number p s => .number (f p) s
  | .bool p b => .bool (f p) b
  | .string p s => .string (f p) s
  | .char p s => .char (f p) s
  | .array p es => .array (f p) (listMapPos f es)
  | .dict p es => .dict (f p) (entriesMapPos f es)
  | .unary p op a => .unary (f p) op (a.mapPos f)
  | .binary p op a b => .binary (f p) op (a.mapPos f) (b.mapPos f)
  | .index p a b => .index (f p) (a.mapPos f) (b.mapPos f)
  | .assign p (.var q x) a => .assign (f p) (.var (f q) x) (a.mapPos f)
  | .assign p (.bare x) a => .assign (f p) (.bare x) (a.mapPos f)
  | .var p x => .var (f p) x
  | .lock p xs a => .lock (f p) xs (a.mapPos f)
  | .letIn p bs a => .letIn (f p) (bindingsMapPos f bs) (a.mapPos f)
  | .sequence p es => .sequence (f p) (listMapPos f es)
  | .loop p a b => .loop (f p) (a.mapPos f) (b.mapPos f)
  | .whileDo p a b => .whileDo (f p) (a.mapPos f) (b.mapPos f)
  | .doWhile p a b => .doWhile (f p) (a.mapPos f) (b.mapPos f)
  | .ifThen p a b c => .ifThen (f p) (a.mapPos f) (b.mapPos f) (optionMapPos f c)
  | .lambda p xs a rest => .lambda (f p) xs (a.mapPos f) rest
  | .proc p xs ys a => .proc (f p) xs ys (a.mapPos f)
  | .call p g as => .call (f p) (g.mapPos f) (listMapPos f as)
  | .struct p fs parent => .struct (f p) (fieldsMapPos f fs) (optionMapPos f parent)
  | .member p a x up => .member (f p) (a.mapPos f) x up
  | .memberAssign p x a => .memberAssign (f p) x (a.mapPos f)
  | .this p => .this (f p)
  | .importFile p path => .importFile (f p) path
  | .trap p => .trap (f p)

def listMapPos (f : Pos → Pos) : List Expr → List Expr
  | [] => []
  | a :: as => a.mapPos f :: listMapPos f as

def entriesMapPos (f : Pos → Pos) : List (Expr × Expr) → List (Expr × Expr)
  | [] => []
  | (k, v) :: es => (k.mapPos f, v.mapPos f) :: entriesMapPos f es

def bindingsMapPos (f : Pos → Pos) : List (Binding Expr) → List (Binding Expr)
  | [] => []
  | ⟨p, .var q x, a⟩ :: bs => ⟨f p, .var (f q) x, a.mapPos f⟩ :: bindingsMapPos f bs
  | ⟨p, .bare x, a⟩ :: bs => ⟨f p, .bare x, a.mapPos f⟩ :: bindingsMapPos f bs

def fieldsMapPos (f : Pos → Pos) : List (Field Expr) → List (Field Expr)
  | [] => []
  | ⟨p, x, a⟩ :: fs => ⟨f p, x, a.mapPos f⟩ :: fieldsMapPos f fs

def optionMapPos (f : Pos → Pos) : Option Expr → Option Expr
  | none => none
  | some a => some (a.mapPos f)

end

/-! ## Files -/

def assignsBare : Expr → Bool
  | assign _ (.bare _) _ => true
  | _ => false

/-- No node assigns to a bare name. -/
def Named (e : Expr) : Prop := ∀ x, e.HasNode x → x.assignsBare = false

theorem Named.child {e a : Expr} (h : e.Named) (ha : a ∈ e.children) : a.Named :=
  fun x hx => h x (hx.of_child ha)

/-! ## Room -/

/-- At most `room` nodes of the expression are nested. -/
def FitsIn : Nat → Expr → Prop
  | 0, _ => False
  | room + 1, e => ∀ a ∈ e.children, FitsIn room a

instance decidableFitsIn : ∀ (room : Nat) (e : Expr), Decidable (FitsIn room e)
  | 0, _ => inferInstanceAs (Decidable False)
  | room + 1, e =>
    have : ∀ a : Expr, Decidable (FitsIn room a) := decidableFitsIn room
    inferInstanceAs (Decidable (∀ a ∈ e.children, FitsIn room a))

/-- The result of marking the nodes of an expression: there is one if there is room for it. -/
def marked {α : Type} (fits : Prop) [Decidable fits] (a : α) : Except MarkFault α :=
  if fits then .ok a else .error .tooDeep

section
variable {α β : Type} {p q : Prop} [Decidable p] [Decidable q]

theorem marked_congr (h : p ↔ q) (a : α) : marked p a = marked q a := by
  unfold marked
  split <;> split <;> simp_all

@[simp] theorem marked_bind_pure (a : α) (f : α → β) :
    (marked p a >>= fun x => pure (f x)) = marked p (f a) := by
  unfold marked
  split <;> rfl

@[simp] theorem marked_bind (a : α) (f : α → β) :
    (marked p a >>= fun x => marked q (f x)) = marked (p ∧ q) (f a) := by
  unfold marked
  by_cases hp : p <;> simp [hp, bind, Except.bind]

end

/-- An expression is marked with a file where `room` calls can be nested, as far as there is room. -/
def MarksAt (path : String) (room : Nat) : Prop :=
  ∀ e : Expr, e.Named → e.within path room = marked (e.FitsIn room) (e.mapPos (Pos.within path))

section
variable {path : String} {room : Nat}

theorem withinList_eq (hmarks : MarksAt path room) : ∀ es : List Expr, (∀ a ∈ es, a.Named) →
    withinList path room es =
      marked (∀ a ∈ es, a.FitsIn room) (listMapPos (Pos.within path) es)
  | [], _ => (if_pos (List.forall_mem_nil _)).symm
  | a :: as, h => by
    obtain ⟨ha, has⟩ := List.forall_mem_cons.1 h
    simp only [withinList, hmarks a ha, withinList_eq hmarks as has, marked_bind_pure, marked_bind]
    exact marked_congr List.forall_mem_cons.symm _

theorem withinEntries_eq (hmarks : MarksAt path room) : ∀ es : List (Expr × Expr),
    (∀ e ∈ es, e.1.Named ∧ e.2.Named) → withinEntries path room es =
      marked (∀ e ∈ es, e.1.FitsIn room ∧ e.2.FitsIn room) (entriesMapPos (Pos.within path) es)
  | [], _ => (if_pos (List.forall_mem_nil _)).symm
  | (k, v) :: es, h => by
    obtain ⟨⟨hk, hv⟩, hes⟩ := List.forall_mem_cons.1 h
    simp only [withinEntries, hmarks k hk, hmarks v hv, withinEntries_eq hmarks es hes,
      marked_bind_pure, marked_bind]
    exact marked_congr (by rw [List.forall_mem_cons, and_assoc]) _

theorem withinOption_eq (hmarks : MarksAt path room) : ∀ e : Option Expr, (∀ a ∈ e, a.Named) →
    withinOption path room e = marked (∀ a ∈ e, a.FitsIn room) (optionMapPos (Pos.within path) e)
  | none, _ => (if_pos nofun).symm
  | some a, h => by
    simp only [withinOption, hmarks a (h a rfl), marked_bind_pure]
    exact marked_congr (by simp) _

theorem target_within_eq (p : Pos) (x : String) : (Target.var p x).within path room =
    marked ((var p x).FitsIn room) (.var (p.within path) x) := by
  cases room with
  | zero => exact (if_neg id).symm
  | succ room => exact (if_pos (List.forall_mem_nil _)).symm

theorem withinBindings_eq (hmarks : ∀ inner < room, MarksAt path inner)
    (bs : List (Binding Expr)) (h : ∀ b ∈ bs, b.node.Named) : withinBindings path room bs =
      marked (∀ b ∈ bs, b.node.FitsIn room) (bindingsMapPos (Pos.within path) bs) := by
  induction bs with
  | nil => exact (if_pos (List.forall_mem_nil _)).symm
  | cons b bs ih =>
    obtain ⟨hb, hbs⟩ := List.forall_mem_cons.1 h
    obtain ⟨p, target, a⟩ := b
    cases target with
    | bare x => cases hb _ .self
    | var q x =>
      cases room with
      | zero => exact (if_neg fun hfits => hfits _ (.head _)).symm
      | succ inner =>
        have ha : a.Named := hb.child (by simp [Binding.node, children])
        simp only [withinBindings, target_within_eq, hmarks inner (Nat.lt_succ_self inner) a ha,
          ih hbs, marked_bind_pure, marked_bind]
        refine marked_congr ?_ _
        simp [Binding.node, FitsIn, children, Target.nodes, and_assoc]

theorem withinFields_eq (hmarks : ∀ inner < room, MarksAt path inner) (fs : List (Field Expr))
    (h : ∀ f ∈ fs, f.node.Named) : withinFields path room fs =
      marked (∀ f ∈ fs, f.node.FitsIn room) (fieldsMapPos (Pos.within path) fs) := by
  induction fs with
  | nil => exact (if_pos (List.forall_mem_nil _)).symm
  | cons f fs ih =>
    obtain ⟨hf, hfs⟩ := List.forall_mem_cons.1 h
    obtain ⟨p, x, a⟩ := f
    cases room with
    | zero => exact (if_neg fun hfits => hfits _ (.head _)).symm
    | succ inner =>
      have ha : a.Named := hf.child (by simp [Field.node, children])
      simp only [withinFields, hmarks inner (Nat.lt_succ_self inner) a ha, ih hfs,
        marked_bind_pure, marked_bind]
      refine marked_congr ?_ _
      simp [Field.node, FitsIn, children]

end

/-- Without bare targets, all positions can be put into the file if there is room for that. -/
theorem within_eq (path : String) (room : Nat) : MarksAt path room := by
  induction room using Nat.strongRecOn with | ind room ih
  intro e h
  cases room with
  | zero =>
    unfold within
    exact (if_neg id).symm
  | succ room =>
    have hmarks : MarksAt path room := ih room (Nat.lt_succ_self room)
    have hinner : ∀ inner < room, MarksAt path inner :=
      fun inner hlt => ih inner (Nat.lt_succ_of_lt hlt)
    cases e with
    | number | bool | string | char | var | this | importFile | trap =>
      exact (if_pos (List.forall_mem_nil _)).symm
    | array _ es | sequence _ es =>
      simp only [within, mapPos, withinList_eq hmarks es fun a ha => h.child ha, marked_bind_pure]
      exact marked_congr Iff.rfl _
    | dict _ es =>
      have hentries : ∀ e ∈ es, e.1.Named ∧ e.2.Named := fun e he =>
        ⟨h.child (List.mem_flatMap.2 ⟨e, he, by simp⟩),
          h.child (List.mem_flatMap.2 ⟨e, he, by simp⟩)⟩
      simp only [within, mapPos, withinEntries_eq hmarks es hentries, marked_bind_pure]
      refine marked_congr ?_ _
      simp only [FitsIn, children, List.forall_mem_flatMap]
      simp
    | unary _ _ a | lock _ _ a | lambda _ _ a _ | proc _ _ _ a | member _ a _ _
    | memberAssign _ _ a =>
      simp only [within, mapPos, hmarks a (h.child (by simp [children])), marked_bind_pure]
      exact marked_congr (by simp [FitsIn, children]) _
    | binary _ _ a b | index _ a b | loop _ a b | whileDo _ a b | doWhile _ a b =>
      simp only [within, mapPos, hmarks a (h.child (by simp [children])),
        hmarks b (h.child (by simp [children])), marked_bind_pure, marked_bind]
      exact marked_congr (by simp [FitsIn, children]) _
    | assign _ target a =>
      cases target with
      | bare x => cases h _ .self
      | var q x =>
        simp only [within, mapPos, target_within_eq, hmarks a (h.child (by simp [children])),
          marked_bind_pure, marked_bind]
        exact marked_congr (by simp [FitsIn, children, Target.nodes]) _
    | letIn _ bs a =>
      simp only [within, mapPos, hmarks a (h.child (by simp [children])),
        withinBindings_eq hinner bs fun b hb => h.child (by
          simp [children, List.mem_map_of_mem hb]), marked_bind_pure, marked_bind]
      exact marked_congr (by simp [FitsIn, children, or_imp, forall_and]) _
    | ifThen _ a b c =>
      simp only [within, mapPos, hmarks a (h.child (by simp [children])),
        hmarks b (h.child (by simp [children])),
        withinOption_eq hmarks c fun x hx => h.child (by simp [children, Option.mem_def.1 hx]),
        marked_bind_pure, marked_bind]
      exact marked_congr (by simp [FitsIn, children]) _
    | call _ f as =>
      simp only [within, mapPos, hmarks f (h.child (by simp [children])),
        withinList_eq hmarks as fun a ha => h.child (by simp [children, ha]),
        marked_bind_pure, marked_bind]
      exact marked_congr (by simp [FitsIn, children, and_comm]) _
    | struct _ fs parent =>
      simp only [within, mapPos, withinFields_eq hinner fs fun f hf => h.child (by
          simp [children, List.mem_map_of_mem hf]),
        withinOption_eq hmarks parent fun x hx => h.child (by simp [children, Option.mem_def.1 hx]),
        marked_bind_pure, marked_bind]
      exact marked_congr (by simp [FitsIn, children, or_imp, forall_and]) _

end Expr

end ExprLang
