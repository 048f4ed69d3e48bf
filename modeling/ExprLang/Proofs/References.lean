/-
  What values refer to.

  A closure refers to the scope that it was made in, and a struct is a scope.  `v.Mentions ref` says
  that such a reference stands somewhere in a value, and `v.Only P` that all those in it satisfy
  `P`.

  Operations make no references: what their operands refer to is all that their results refer to
  (`only_arith`, `only_withSign`, `only_index`, …), and comparisons give values without references
  (`only_compare`).  `Gives Q r` says so of results that may be faults.
-/
import ExprLang.Value.Part
import Mathlib.Data.List.Basic

namespace ExprLang

/-- A reference to a scope. -/
inductive Ref where
  /-- To the scope that a closure was made in. -/
  | code (scope : Nat)
  /-- To a struct. -/
  | struct (id : Nat)

namespace Value

/-- A value refers to a scope, itself or in one of its parts. -/
inductive Mentions : Value → Ref → Prop where
  | closure {scope : Nat} {params : List String} {body : Expr} {rest : Bool}
    {locals : Option (List String)} :
    Mentions (.closure scope params body rest locals) (.code scope)
  | struct {id : Nat} : Mentions (.struct id) (.struct id)
  | tuple {items : List Value} {v : Value} {ref : Ref} (hv : v ∈ items) (h : Mentions v ref) :
    Mentions (.tuple items) ref
  | key {entries : List (Value × Value)} {k v : Value} {ref : Ref} (he : (k, v) ∈ entries)
    (h : Mentions k ref) : Mentions (.dict entries) ref
  | entry {entries : List (Value × Value)} {k v : Value} {ref : Ref} (he : (k, v) ∈ entries)
    (h : Mentions v ref) : Mentions (.dict entries) ref
  | array {mark : Nat} {kind : ItemKind} {shape : List Nat} {items : List Value} {v : Value}
    {ref : Ref} (hv : v ∈ items) (h : Mentions v ref) : Mentions (.array mark kind shape items) ref
  | scalar {mark : Nat} {item : Value} {ref : Ref} (h : Mentions item ref) :
    Mentions (.scalar mark item) ref

/-- All that a value refers to satisfies `P`. -/
def Only (P : Ref → Prop) (v : Value) : Prop := ∀ ref, v.Mentions ref → P ref

theorem Only.mono {P Q : Ref → Prop} {v : Value} (h : v.Only P) (hPQ : ∀ ref, P ref → Q ref) :
    v.Only Q :=
  fun ref hv => hPQ ref (h ref hv)

section
variable {P : Ref → Prop}

variable {m : Nat}

@[simp] theorem only_null : Value.null.Only P := nofun

@[simp] theorem only_bool (b : Bool) : (Value.bool b).Only P := nofun

@[simp] theorem only_int (i : Int) : (Value.int i).Only P := nofun

@[simp] theorem only_float (x : Float) : (Value.float x).Only P := nofun

@[simp] theorem only_word (w : UInt64) : (Value.word w).Only P := nofun

@[simp] theorem only_nan (m : Nat) : (Value.nan m).Only P := nofun

@[simp] theorem only_text (s : String) : (Value.text s).Only P := nofun

@[simp] theorem only_builtin (f : Builtin) : (Value.builtin f).Only P := nofun

@[simp] theorem only_closure {scope : Nat} {params : List String} {body : Expr} {rest : Bool}
    {locals : Option (List String)} :
    (Value.closure scope params body rest locals).Only P ↔ P (.code scope) :=
  ⟨fun h => h _ .closure, by rintro h _ ⟨⟩; exact h⟩

@[simp] theorem only_struct {id : Nat} : (Value.struct id).Only P ↔ P (.struct id) :=
  ⟨fun h => h _ .struct, by rintro h _ ⟨⟩; exact h⟩

@[simp] theorem only_tuple {items : List Value} :
    (Value.tuple items).Only P ↔ ∀ v ∈ items, v.Only P := by
  constructor
  · intro h v hv ref hm
    exact h ref (.tuple hv hm)
  · rintro h ref (_ | _ | ⟨hv, hm⟩)
    exact h _ hv ref hm

@[simp] theorem only_dict {entries : List (Value × Value)} :
    (Value.dict entries).Only P ↔ ∀ e ∈ entries, e.1.Only P ∧ e.2.Only P := by
  constructor
  · rintro h ⟨k, v⟩ he
    exact ⟨fun ref hm => h ref (.key he hm), fun ref hm => h ref (.entry he hm)⟩
  · intro h ref hm
    cases hm with
    | key he hm => exact (h _ he).1 ref hm
    | entry he hm => exact (h _ he).2 ref hm

@[simp] theorem only_array {k : ItemKind} {shape : List Nat} {items : List Value} :
    (Value.array m k shape items).Only P ↔ ∀ v ∈ items, v.Only P := by
  constructor
  · intro h v hv ref hm
    exact h ref (.array hv hm)
  · intro h ref hm
    cases hm with
    | array hv hm => exact h _ hv ref hm

@[simp] theorem only_scalar {item : Value} : (Value.scalar m item).Only P ↔ item.Only P :=
  ⟨fun h ref hm => h ref (.scalar hm), by rintro h ref ⟨⟩; exact h ref ‹_›⟩

@[simp] theorem only_nil : Value.nil.Only P := by simp [nil]

@[simp] theorem only_cons {a b : Value} : (Value.cons a b).Only P ↔ a.Only P ∧ b.Only P := by
  simp [cons]

@[simp] theorem only_ofFloat (x : Float) : (Value.ofFloat x).Only P := by
  unfold ofFloat
  split <;> simp

@[simp] theorem only_withMark {v : Value} : (v.withMark m).Only P ↔ v.Only P := by
  cases v <;> simp [withMark]

end

theorem only_true (v : Value) : v.Only fun _ => True := fun _ _ => trivial

end Value

open Value

/-! ## Results that may be faults -/

/-- A result is a fault, or satisfies `Q`. -/
def Gives {α : Type} (Q : α → Prop) (r : Except Fault α) : Prop := ∀ a, r = .ok a → Q a

namespace Gives

variable {α β : Type} {Q : α → Prop} {R : β → Prop}

theorem pure {a : α} (h : Q a) : Gives Q (pure a) := by
  rintro _ ⟨⟩
  exact h

theorem throw (f : Fault) : Gives Q (throw f) := nofun

theorem bind {r : Except Fault α} {k : α → Except Fault β} (hr : Gives Q r)
    (hk : ∀ a, Q a → Gives R (k a)) : Gives R (r >>= k) := by
  cases r with
  | error f => exact nofun
  | ok a => exact hk a (hr a rfl)

/-- Whatever the first part of a computation gives. -/
theorem bind' {r : Except Fault α} {k : α → Except Fault β} (hk : ∀ a, Gives R (k a)) :
    Gives R (r >>= k) :=
  bind (Q := fun _ => True) (fun _ _ => trivial) fun a _ => hk a

theorem mapM {f : α → Except Fault β} : ∀ l : List α, (∀ a ∈ l, Gives R (f a)) →
    Gives (fun bs => ∀ b ∈ bs, R b) (l.mapM f)
  | [], _ => by
    rw [List.mapM_nil]
    exact pure nofun
  | a :: l, h => by
    rw [List.mapM_cons]
    refine (h a (by simp)).bind fun b hb => ?_
    refine (mapM l fun c hc => h c (by simp [hc])).bind fun bs hbs => pure ?_
    simpa using ⟨hb, hbs⟩

end Gives

/-! ## Arrays -/

section
variable {P : Ref → Prop}

mutual

theorem only_itemsWithin : ∀ v : Value, v.Only P → ∀ i ∈ itemsWithin v, i.Only P
  | .array .., h => by simpa [itemsWithin] using h
  | .tuple items, h => by
    rw [itemsWithin]
    exact only_itemsWithinAll items (only_tuple.1 h)
  | .null, h | .bool _, h | .int _, h | .word _, h | .float _, h | .nan _, h | .text _, h
  | .dict _, h | .scalar .., h | .closure .., h | .builtin _, h | .struct _, h =>
    fun _ hi => List.mem_singleton.1 hi ▸ h

theorem only_itemsWithinAll : ∀ vs : List Value, (∀ v ∈ vs, v.Only P) →
    ∀ i ∈ itemsWithinAll vs, i.Only P
  | [], _ => by simp [itemsWithinAll]
  | v :: vs, h => by
    intro i hi
    rw [itemsWithinAll, List.mem_append] at hi
    rcases hi with hi | hi
    · exact only_itemsWithin v (h v (by simp)) i hi
    · exact only_itemsWithinAll vs (fun u hu => h u (by simp [hu])) i hi

end

theorem only_cast (k : ItemKind) {v : Value} (h : v.Only P) : (k.cast v).Only P := by
  unfold ItemKind.cast
  split
  · exact h
  · cases v with
    | scalar m item =>
      have hitem : item.Only P := only_scalar.1 h
      dsimp only
      split <;> first
        | exact hitem | exact only_int _ | exact only_word _ | exact only_float _ | exact only_text _
    | _ =>
      dsimp only
      split <;> first
        | exact h | exact only_int _ | exact only_word _ | exact only_float _ | exact only_text _

/-- All that the items of an array refer to satisfies `P`. -/
def Grid.Only (P : Ref → Prop) (g : Grid) : Prop := ∀ v ∈ g.items, v.Only P

namespace Grid

variable {v : Value} {g : Grid}

theorem only_ofValues {vs : List Value} (h : ∀ v ∈ vs, v.Only P) :
    Gives (Grid.Only P) (ofValues vs) := by
  unfold ofValues
  dsimp only
  split
  · exact .throw _
  · refine .pure fun i hi => ?_
    obtain ⟨j, hj, rfl⟩ := List.mem_map.1 hi
    exact only_cast _ (only_itemsWithinAll vs h j hj)

theorem only_ofValue (h : v.Only P) : Gives (Grid.Only P) (ofValue v) := by
  have hsingle : ∀ {k : ItemKind} {u : Value}, u.Only P → Grid.Only P ⟨k, [], [u]⟩ :=
    fun hu => by simpa [Grid.Only] using hu
  cases v with
  | array _ kind shape items => exact .pure (only_array.1 h)
  | tuple items => exact only_ofValues (only_tuple.1 h)
  | scalar _ item => exact .pure (hsingle (only_scalar.1 h))
  | _ => exact .pure (hsingle h)

theorem Only.toValue (h : g.Only P) : g.toValue.Only P := by
  unfold Grid.toValue
  split
  · rename_i item _ hitems
    have hitem : item.Only P := h item (by simp [hitems])
    split
    · exact hitem
    · exact only_scalar.2 hitem
  · exact only_array.2 h

theorem Only.cast (h : g.Only P) (k : ItemKind) : (g.cast k).Only P := by
  unfold Grid.cast
  split
  · exact h
  · intro i hi
    obtain ⟨j, hj, rfl⟩ := List.mem_map.1 hi
    exact only_cast k (h j hj)

theorem Only.at? (h : g.Only P) {i : Int} (hv : g.at? i = some v) : v.Only P := by
  unfold Grid.at? at hv
  split at hv
  · exact nomatch hv
  · obtain ⟨-, hv⟩ := Option.ite_none_left_eq_some.1 hv
    cases hv
    exact Only.toValue fun u hu => h u (List.mem_of_mem_drop (List.mem_of_mem_take hu))

theorem mem_spreadItems : ∀ (shape wide : List Nat) (items : List Value),
    v ∈ spreadItems items shape wide → v ∈ items
  | n :: shape, m :: wide, items, hv => by
    have hrow : ∀ i, v ∈ spreadItems ((items.drop (i * sizeOfShape shape)).take
        (sizeOfShape shape)) shape wide → v ∈ items := fun i hi =>
      List.mem_of_mem_drop (List.mem_of_mem_take (mem_spreadItems shape wide _ hi))
    rw [spreadItems] at hv
    dsimp only at hv
    split at hv
    · obtain ⟨i, -, hi⟩ := List.mem_flatMap.1 hv
      exact hrow i hi
    · obtain ⟨i, -, hi⟩ := List.mem_flatMap.1 hv
      exact hrow 0 hi
  | [], _, items, hv | _ :: _, [], items, hv => by simpa [spreadItems] using hv

theorem Only.spread (h : g.Only P) (shape : List Nat) : ∀ v ∈ g.spread shape, v.Only P :=
  fun v hv => h v (mem_spreadItems _ _ _ hv)

theorem only_zipWith {Q : Ref → Prop} {f : Value → Value → Except Fault Value} {a b : Grid}
    (kind : ItemKind) (ha : a.Only P) (hb : b.Only P)
    (hf : ∀ x y, x.Only P → y.Only P → Gives (Value.Only Q) (f x y)) :
    Gives (Grid.Only Q) (a.zipWith kind f b) := by
  unfold Grid.zipWith
  split
  · exact .throw _
  · refine (Gives.mapM _ fun xy hxy => ?_).bind fun items hitems => .pure hitems
    obtain ⟨hx, hy⟩ := List.of_mem_zip hxy
    exact hf _ _ (ha.spread _ _ hx) (hb.spread _ _ hy)

end Grid

/-! ## Comparison -/

namespace Value

variable {a b v : Value}

theorem only_compareUnordered (op : CompareOp) (equal : Bool) (a b : Value) :
    Gives (Value.Only P) (compareUnordered op equal a b) := by
  cases op with
  | eq | ne => exact .pure (only_bool _)
  | _ => exact .throw _

theorem only_compareItems (op : CompareOp) (a b : Value) :
    Gives (Value.Only P) (compareItems op a b) := by
  unfold compareItems
  split
  · exact .pure (only_bool _)
  · split <;> exact .pure (only_bool _)

theorem only_compareGrids (objects : Value → Value → Except Fault Value) (op : CompareOp)
    (a b : Grid) : Gives (Value.Only P) (compareGrids objects op a b) := by
  have hzip : ∀ (f : Value → Value → Except Fault Value) (a b : Grid),
      (∀ x y, Gives (Value.Only P) (f x y)) →
      Gives (Value.Only P) (return (← a.zipWith .bool f b).toValue) := fun f a b hf =>
    (Grid.only_zipWith .bool (fun v _ => only_true v) (fun v _ => only_true v)
      fun x y _ _ => hf x y).bind fun g hg => .pure hg.toValue
  unfold compareGrids
  dsimp only
  split
  · exact hzip _ a b fun x y => .bind' fun _ => .bind' fun _ => .pure (only_bool _)
  split
  · exact hzip _ a b fun x y => only_compareItems op x y
  split
  · exact hzip _ _ _ fun x y => only_compareItems op x y
  split
  · exact hzip _ a b fun x y => .pure (only_bool _)
  · exact .throw _

theorem only_compareLists {equal : Value → Value → Except Fault Bool}
    {compare : Value → Value → Except Fault Value} (op : CompareOp)
    (hc : ∀ x y, Gives (Value.Only P) (compare x y)) : ∀ as bs : List Value,
    Gives (Value.Only P) (compareLists equal compare op as bs)
  | [], [] | [], _ :: _ | _ :: _, [] => by
    rw [compareLists]
    exact .pure (only_bool _)
  | a :: as, b :: bs => by
    rw [compareLists]
    refine .bind' fun e => ?_
    split
    · exact only_compareLists op hc as bs
    · split
      · exact .pure (only_bool _)
      · exact hc a b

theorem only_compareWithin : ∀ (fuel : Nat) (op : CompareOp) (a b : Value),
    Gives (Value.Only P) (compareWithin fuel op a b)
  | 0, op, a, b => only_compareUnordered op false a b
  | fuel + 1, op, a, b => by
    have hgrids : Gives (Value.Only P) (do
        compareGrids (compareWithin fuel op) op (← Grid.ofValue a) (← Grid.ofValue b)) :=
      .bind' fun _ => .bind' fun _ => only_compareGrids _ op _ _
    unfold compareWithin
    dsimp only
    split
    · exact hgrids
    split
    · split
      · exact .pure (only_bool _)
      · exact hgrids
    split
    · exact only_compareLists op (only_compareWithin fuel op) _ _
    · split
      · split
        · exact .bind' fun _ => only_compareUnordered op _ _ _
        · exact only_compareUnordered op _ _ _
      · exact only_compareUnordered op _ _ _
    · exact only_compareUnordered op _ _ _
    · exact only_compareUnordered op _ _ _
    · exact only_compareUnordered op _ _ _
    · exact only_compareUnordered op _ _ _
    · split
      · exact .pure (only_bool _)
      · split
        · exact .pure (only_bool _)
        · exact only_compareUnordered op _ _ _

theorem only_compare (op : CompareOp) (a b : Value) : Gives (Value.Only P) (a.compare op b) :=
  only_compareWithin _ op a b

/-! ## Arithmetic -/

theorem only_arithItems (op : ArithOp) (a b : Value) : (arithItems op a b).Only P := by
  unfold arithItems
  split
  · cases op <;> simp
  · cases op <;> simp
  · cases op <;> simp
  · simp
  · cases op <;> simp

theorem only_arithNumbers (op : ArithOp) (m n : Number) :
    Gives (Value.Only P) (m.arith op n) := by
  have hfloat : Gives (Value.Only P) (do Number.floatArith op (← m.toFloat) (← n.toFloat)) := by
    refine .bind' fun x => .bind' fun y => ?_
    cases op with
    | div =>
      simp only [Number.floatArith]
      split
      · exact .throw _
      · exact .pure (only_ofFloat _)
    | _ => exact .pure (only_ofFloat _)
  unfold Number.arith
  split
  · cases op with
    | div =>
      simp only [Number.intQuotient]
      split
      · exact .throw _
      · split
        · exact .throw _
        · split <;> exact .pure (only_float _)
    | _ => exact .pure (only_int _)
  · exact hfloat

theorem only_arithGrids {objects : Value → Value → Except Fault Value} (op : ArithOp) {a b : Grid}
    (ha : a.Only P) (hb : b.Only P)
    (ho : ∀ x y, x.Only P → y.Only P → Gives (Value.Only P) (objects x y)) :
    Gives (Value.Only P) (arithGrids objects op a b) := by
  have hitems : ∀ (k : ItemKind) {a b : Grid}, a.Only P → b.Only P → Gives (Value.Only P)
      (return (← a.zipWith k (fun x y => return arithItems op x y) b).toValue) := fun k _ _ ha hb =>
    (Grid.only_zipWith k ha hb fun x y _ _ => .pure (only_arithItems op x y)).bind
      fun g hg => .pure hg.toValue
  have hobjects : Gives (Value.Only P) (return (← a.zipWith .object objects b).toValue) :=
    (Grid.only_zipWith .object ha hb ho).bind fun g hg => .pure hg.toValue
  unfold arithGrids
  split
  · exact hobjects
  · exact hobjects
  · split
    · exact hitems _ ha hb
    · exact .throw _
  · exact .throw _
  · exact .throw _
  · dsimp only
    generalize (if op = .div then ItemKind.float else a.kind.join b.kind) = common
    split
    · exact .throw _
    · exact hitems common (ha.cast common) (hb.cast common)

theorem only_besideItems (kind : ItemKind) (i : Int) :
    Gives (Grid.Only P) (besideItems kind i) := by
  have hsingle : ∀ {k : ItemKind} {u : Value}, u.Only P → Grid.Only P ⟨k, [], [u]⟩ :=
    fun hu => by simpa [Grid.Only] using hu
  cases kind with
  | bool | int | word =>
    simp only [besideItems]
    split
    · exact .pure (hsingle (by simp))
    · exact .throw _
  | float => exact .bind' fun _ => .pure (hsingle (only_float _))
  | text | object => exact Grid.only_ofValue (only_int i)

theorem only_operands (ha : a.Only P) (hb : b.Only P) :
    Gives (fun gs => gs.1.Only P ∧ gs.2.Only P) (operands a b) := by
  unfold operands
  split
  · exact (Grid.only_ofValue hb).bind fun _ hg => (only_besideItems _ _).bind fun _ hh =>
      .pure ⟨hh, hg⟩
  · exact (Grid.only_ofValue ha).bind fun _ hg => (only_besideItems _ _).bind fun _ hh =>
      .pure ⟨hg, hh⟩
  · exact (Grid.only_ofValue ha).bind fun _ hg => (Grid.only_ofValue hb).bind fun _ hh =>
      .pure ⟨hg, hh⟩

theorem only_repeated (n : Int) (h : v.Only P) : (v.repeated n).Only P := by
  cases v with
  | tuple items =>
    refine only_tuple.2 fun u hu => ?_
    obtain ⟨l, hl, hul⟩ := List.mem_flatten.1 hu
    rw [List.eq_of_mem_replicate hl] at hul
    exact only_tuple.1 h u hul
  | text s => exact only_text _
  | _ => exact h

theorem only_arithPlain (op : ArithOp) (ha : a.Only P) (hb : b.Only P) :
    Gives (Value.Only P) (arithPlain op a b) := by
  unfold arithPlain
  split
  · exact only_arithNumbers op _ _
  split
  · exact .pure (only_text _)
  · exact .throw _
  · refine .pure (only_tuple.2 fun v hv => ?_)
    rcases List.mem_append.1 hv with hv | hv
    · exact only_tuple.1 ha v hv
    · exact only_tuple.1 hb v hv
  · exact .throw _
  · split
    · split
      · exact .pure (only_repeated _ ha)
      · exact .throw _
    · split
      · split
        · exact .pure (only_repeated _ hb)
        · exact .throw _
      · exact .throw _
  · exact .throw _

theorem only_arithScalars (op : ArithOp) (ha : a.Only P) (hb : b.Only P) :
    Gives (Value.Only P) (arithScalars op a b) := by
  have hgrids : Gives (Value.Only P)
      (operands a b >>= fun g => arithGrids (arithPlain op) op g.1 g.2) :=
    (only_operands ha hb).bind fun _ hg =>
      only_arithGrids op hg.1 hg.2 fun _ _ hx hy => only_arithPlain op hx hy
  unfold arithScalars
  dsimp only
  split
  · exact only_arithPlain op ha hb
  split
  · split
    · exact .pure (only_text _)
    · exact .throw _
    · exact hgrids
  · split
    · split
      · exact .pure (only_repeated _ ha)
      · exact .throw _
    · split
      · split
        · exact .pure (only_repeated _ hb)
        · exact .throw _
      · exact hgrids
  · exact hgrids

theorem only_arith (op : ArithOp) (ha : a.Only P) (hb : b.Only P) :
    Gives (Value.Only P) (a.arith op b) := by
  unfold arith
  split
  · exact (only_operands ha hb).bind fun _ hg =>
      only_arithGrids op hg.1 hg.2 fun _ _ hx hy => only_arithScalars op hx hy
  · exact only_arithScalars op ha hb

theorem only_signed (minus : Bool) (v : Value) : Gives (Value.Only P) (v.signed minus) := by
  cases v with
  | bool | int => exact .pure (only_int _)
  | float x => exact .pure (only_float _)
  | nan m =>
    refine .pure ?_
    split <;> exact only_nan _
  | _ => exact .throw _

theorem only_signedItem (minus : Bool) (v : Value) : Gives (Value.Only P) (v.signedItem minus) := by
  unfold signedItem
  split
  · exact (only_signed minus _).bind fun u hu => .pure (only_scalar.2 hu)
  · exact only_signed minus _

theorem only_signedWhole (minus : Bool) (h : v.Only P) : (v.signedWhole minus).Only P := by
  unfold signedWhole
  split
  · exact only_int _
  · exact only_word _
  · exact h

theorem only_withSign (minus : Bool) (h : v.Only P) : Gives (Value.Only P) (v.withSign minus) := by
  unfold withSign
  split
  case h_3 => exact only_signed minus _
  all_goals
    refine (Grid.only_ofValue h).bind fun g hg => ?_
    have hwhole : ∀ u ∈ g.items.map (signedWhole minus), u.Only P := by
      intro u hu
      obtain ⟨i, hi, rfl⟩ := List.mem_map.1 hu
      exact only_signedWhole minus (hg i hi)
    dsimp only
    split
    · exact .throw _
    · exact .throw _
    · exact .pure (Grid.Only.toValue hwhole)
    · exact .pure (Grid.Only.toValue hwhole)
    · exact (Gives.mapM _ fun u _ => only_signedItem minus u).bind fun items hitems =>
        .pure (Grid.Only.toValue hitems)

/-! ## Parts -/

theorem only_lookup? {entries : List (Value × Value)} {key : Value}
    (h : (Value.dict entries).Only P) (hv : lookup? entries key = some v) : v.Only P := by
  obtain ⟨e, he, rfl⟩ := Option.map_eq_some_iff.1 hv
  exact (only_dict.1 h e (List.mem_of_find?_eq_some he)).2

theorem only_insert {entries : List (Value × Value)} {key value : Value}
    (h : (Value.dict entries).Only P) (hk : key.Only P) (hv : value.Only P) :
    (Value.dict (insert entries key value)).Only P := by
  rw [only_dict] at h ⊢
  intro e he
  unfold insert at he
  split at he
  · obtain ⟨e', he', rfl⟩ := List.mem_map.1 he
    dsimp only
    split
    · exact ⟨(h e' he').1, hv⟩
    · exact h e' he'
  · rcases List.mem_append.1 he with he | he
    · exact h e he
    · rw [List.mem_singleton.1 he]
      exact ⟨hk, hv⟩

section
variable {β : Type} (scopes : Forest Value β)

theorem only_entry {entries : List (Value × Value)} (h : (Value.dict entries).Only P)
    (key : Value) : Gives (Value.Only P) (entry scopes entries key) := by
  unfold entry
  split
  · exact .throw _
  · split
    · rename_i v hv
      exact .pure (only_lookup? h hv)
    · exact .throw _

theorem mem_of_itemAt? {α : Type} {items : List α} {i : Int} {a : α}
    (h : itemAt? items i = some a) : a ∈ items := by
  obtain ⟨-, h⟩ := Option.ite_none_left_eq_some.1 h
  exact List.mem_of_getElem? h

theorem only_position {v : Value} (h : v.Only P) (i : Int) :
    Gives (Value.Only P) (v.position scopes i) := by
  unfold position
  split
  · split
    · exact .pure (only_text _)
    · exact .throw _
  · split
    · exact .pure (only_text _)
    · exact .throw _
  · split
    · rename_i u hu
      exact .pure (only_tuple.1 h u (mem_of_itemAt? hu))
    · exact .throw _
  · split
    · rename_i u hu
      exact .pure (Grid.Only.at? (only_array.1 h) hu)
    · exact .throw _
  · exact only_entry scopes h _
  · exact .throw _
  · exact .throw _
  · exact .throw _

theorem only_index {v : Value} (h : v.Only P) (i : Value) :
    Gives (Value.Only P) (v.index scopes i) := by
  cases v with
  | dict entries => exact only_entry scopes h i
  | _ => exact .bind' fun n => only_position scopes h n

end

end Value

end

end ExprLang
