/-
  The shapes of arrays.

  An array is built from nested lists and arrays whose parts have one shape.  While the parts are
  visited, an outline of the shape is kept: it is open until the first part without further
  dimensions, which closes it, and from then on every part must fit.

  * `Value.HasShape` says what the shape of a value is as a part of an array, on its own;
  * `Value.Full`: the arrays in a value have as many items as their shapes say, and only the last of
    their sizes can be zero;
  * `visit_closed`, `visit_opened`: what one part does to an outline;
  * `ofValues_ok`, `ofValues_ragged`: there is an array exactly if the parts have one shape;
  * `Grid.at?_row`: the part of an array at a position is made of the items of one part.
-/
import ExprLang.Value.Grid
import Mathlib

namespace ExprLang

/-! ## Shapes -/

namespace Value

/-- A value that is an item of an array by itself. -/
def isSingle : Value → Bool
  | .array .. | .tuple _ => false
  | _ => true

mutual

theorem part_induction {motive : Value → Prop}
    (array : ∀ mark kind shape items, motive (.array mark kind shape items))
    (tuple : ∀ items, (∀ v ∈ items, motive v) → motive (.tuple items))
    (single : ∀ v : Value, v.isSingle = true → motive v) : ∀ v : Value, motive v
  | .array mark kind shape items => array mark kind shape items
  | .tuple items => tuple items (parts_induction array tuple single items)
  | .null | .bool _ | .int _ | .word _ | .float _ | .nan _ | .text _ | .dict _ | .scalar ..
  | .closure .. | .builtin _ | .struct _ => single _ rfl

theorem parts_induction {motive : Value → Prop}
    (array : ∀ mark kind shape items, motive (.array mark kind shape items))
    (tuple : ∀ items, (∀ v ∈ items, motive v) → motive (.tuple items))
    (single : ∀ v : Value, v.isSingle = true → motive v) : ∀ vs : List Value, ∀ v ∈ vs, motive v
  | [] => List.forall_mem_nil _
  | v :: vs => List.forall_mem_cons.2
    ⟨part_induction array tuple single v, parts_induction array tuple single vs⟩

end

mutual

/-- The sizes of a value as a part of an array. -/
def HasShape : Value → List Nat → Prop
  | .array _ _ shape _, s => shape = s
  | .tuple _, [] => False
  | .tuple items, n :: s => items.length = n ∧ (items = [] → s = []) ∧ AllHaveShape items s
  | _, s => s = []

def AllHaveShape : List Value → List Nat → Prop
  | [], _ => True
  | v :: vs, s => v.HasShape s ∧ AllHaveShape vs s

end

mutual

/-- The arrays in a value have as many items as their shapes say, and only the last of their sizes
    can be zero. -/
def Full : Value → Prop
  | .array _ _ shape items =>
    shape ≠ [] ∧ 0 ∉ shape.dropLast ∧ items.length = sizeOfShape shape
  | .tuple items => AllFull items
  | _ => True

def AllFull : List Value → Prop
  | [] => True
  | v :: vs => v.Full ∧ AllFull vs

end

theorem allHaveShape_iff {vs : List Value} {s : List Nat} :
    AllHaveShape vs s ↔ ∀ v ∈ vs, v.HasShape s := by
  induction vs with
  | nil => simp [AllHaveShape]
  | cons v vs ih => rw [AllHaveShape, ih, List.forall_mem_cons]

theorem allFull_iff {vs : List Value} : AllFull vs ↔ ∀ v ∈ vs, v.Full := by
  induction vs with
  | nil => simp [AllFull]
  | cons v vs ih => rw [AllFull, ih, List.forall_mem_cons]

section
variable {v : Value} {items : List Value} {s t : List Nat}

theorem hasShape_tuple : (tuple items).HasShape s ↔
    ∃ t, s = items.length :: t ∧ (items = [] → t = []) ∧ ∀ v ∈ items, v.HasShape t := by
  cases s with
  | nil => simp [HasShape]
  | cons n t =>
    rw [HasShape, allHaveShape_iff]
    constructor
    · rintro ⟨rfl, hnil, hall⟩
      exact ⟨t, rfl, hnil, hall⟩
    · rintro ⟨_, hs, hnil, hall⟩
      cases hs
      exact ⟨rfl, hnil, hall⟩

theorem hasShape_single (h : v.isSingle = true) : v.HasShape s ↔ s = [] := by
  cases v <;> first | rfl | cases h

theorem full_single (h : v.isSingle = true) : v.Full := by
  cases v <;> trivial

theorem HasShape.unique (hs : v.HasShape s) (ht : v.HasShape t) : s = t := by
  induction v using part_induction generalizing s t with
  | array => exact Eq.trans (Eq.symm hs) ht
  | tuple items ih =>
    obtain ⟨s, rfl, hnil, hs⟩ := hasShape_tuple.1 hs
    obtain ⟨t, rfl, hnil', ht⟩ := hasShape_tuple.1 ht
    cases items with
    | nil => rw [hnil rfl, hnil' rfl]
    | cons v items => rw [ih v (.head _) (hs v (.head _)) (ht v (.head _))]
  | single v h => rw [(hasShape_single h).1 hs, (hasShape_single h).1 ht]

theorem HasShape.zero_last (hv : v.Full) (hs : v.HasShape s) : 0 ∉ s.dropLast := by
  induction v using part_induction generalizing s with
  | array => exact hs ▸ hv.2.1
  | tuple items ih =>
    obtain ⟨s, rfl, hnil, hs⟩ := hasShape_tuple.1 hs
    cases items with
    | nil => simp [hnil rfl]
    | cons v items =>
      have hzero := ih v (.head _) (allFull_iff.1 hv v (.head _)) (hs v (.head _))
      cases s with
      | nil => simp
      | cons n s => simpa using hzero
  | single v h => simp [(hasShape_single h).1 hs]

end

end Value

/-! ## Outlines -/

namespace Outline

variable {v : Value} {o : Outline} {depth : Nat} {shape : List Nat}

/-- The outline on the way to the first part without further dimensions. -/
def opened (shape : List Nat) : Outline := ⟨64, shape, false, false⟩

/-- The outline behind that part. -/
def closed (shape : List Nat) : Outline := ⟨shape.length, shape, true, false⟩

section
variable {shape sizes : List Nat} {depth n : Nat}

theorem meet_opened (h : shape.length + sizes.length ≤ 64) :
    (opened shape).meet shape.length sizes false = (closed (shape ++ sizes), true) := by
  have hover : ¬ 64 < shape.length + sizes.length := by omega
  by_cases hdims : 64 = shape.length + sizes.length
  · simp [meet, opened, closed, ← hdims]
  · simp [meet, opened, closed, hover, hdims]

theorem ragged_meet_opened (h : 64 < shape.length + sizes.length) :
    ((opened shape).meet shape.length sizes false).1.ragged = true := by
  simp [meet, opened, h]

theorem meet_opened_sequence (h : shape.length < 64) :
    (opened shape).meet shape.length [n] true = (opened (shape ++ [n]), true) := by
  have hover : ¬ 64 < shape.length + 1 := by omega
  simp [meet, opened, hover]

/-- All sizes agree exactly if they are the same. -/
theorem length_takeWhile_zip : ∀ {s t : List Nat}, s.length = t.length →
    (((s.zip t).takeWhile fun p => p.1 == p.2).length = t.length ↔ s = t)
  | [], [], _ => by simp
  | a :: s, b :: t, h => by
    have ih := length_takeWhile_zip (Nat.succ.inj h)
    by_cases hab : a = b
    · simp [hab, ih]
    · simp [hab]

theorem meet_closed (hdepth : depth ≤ shape.length) (h : shape.drop depth = sizes) :
    (closed shape).meet depth sizes false = (closed shape, true) := by
  have hlength : depth + sizes.length = shape.length := by
    rw [← h, List.length_drop]
    omega
  have hagree := (length_takeWhile_zip (congrArg List.length h)).2 h
  simp [meet, closed, hlength, agreeing, hagree]

theorem ragged_meet_closed (hdepth : depth ≤ shape.length) (h : shape.drop depth ≠ sizes) :
    ((closed shape).meet depth sizes false).1.ragged = true := by
  by_cases hlength : depth + sizes.length = shape.length
  · have hagree := (length_takeWhile_zip (s := shape.drop depth) (t := sizes)
      (by rw [List.length_drop]; omega)).not.2 h
    simp [meet, closed, hlength, agreeing, hagree]
  · by_cases hover : shape.length < depth + sizes.length
    · simp [meet, closed, hover]
    · simp [meet, closed, hover, Ne.symm hlength]

theorem meet_closed_sequence {rest : List Nat} (h : shape.drop depth = n :: rest) :
    (closed shape).meet depth [n] true = (closed shape, true) := by
  have hlength : ¬ shape.length < depth + 1 := by
    have := congrArg List.length h
    rw [List.length_drop, List.length_cons] at this
    omega
  simp [meet, closed, hlength, agreeing, h]

theorem ragged_meet_closed_sequence {m : Nat} {rest : List Nat} (h : shape.drop depth = m :: rest)
    (hn : m ≠ n) :
    ∃ o : Outline, (closed shape).meet depth [n] true = (o, false) ∧ o.ragged = true := by
  have hlength : ¬ shape.length < depth + 1 := by
    have := congrArg List.length h
    rw [List.length_drop, List.length_cons] at this
    omega
  refine ⟨_, Prod.ext rfl ?_, ?_⟩ <;> simp [meet, closed, hlength, agreeing, h, hn]

end

/-! ## Visits -/

theorem visit_single (h : v.isSingle = true) (o : Outline) (depth : Nat) :
    o.visit depth v = (o.meet depth [] false).1 := by
  cases v <;> first | rfl | cases h

theorem ragged_meet (h : o.ragged = true) (depth : Nat) (sizes : List Nat) (sequence : Bool) :
    (o.meet depth sizes sequence).1.ragged = true := by
  simp [meet, h]

theorem ragged_visitAll {vs : List Value}
    (hv : ∀ v ∈ vs, ∀ {o : Outline}, o.ragged = true → (o.visit depth v).ragged = true)
    (h : o.ragged = true) : (o.visitAll depth vs).ragged = true := by
  induction vs generalizing o with
  | nil => exact h
  | cons v vs ih =>
    obtain ⟨hv, hvs⟩ := List.forall_mem_cons.1 hv
    exact ih hvs (hv h)

theorem ragged_visit (v : Value) (h : o.ragged = true) (depth : Nat) :
    (o.visit depth v).ragged = true := by
  induction v using Value.part_induction generalizing o depth with
  | array => exact ragged_meet h ..
  | tuple items ih =>
    have hmet := ragged_meet h depth [items.length] true
    rw [visit]
    split
    · rfl
    · split
      · rename_i met heq
        rwa [heq] at hmet
      · rename_i met heq
        rw [heq] at hmet
        split
        · exact hmet
        · exact ragged_visitAll (fun v hv _ h => ih v hv h _) hmet
  | single v hv =>
    rw [visit_single hv]
    exact ragged_meet h ..

/-- Parts that fit leave the outline, and it gets ragged by the first one that does not fit. -/
theorem visitAll_cases {P : Value → Prop} {vs : List Value}
    (h : ∀ v ∈ vs, P v ∧ o.visit depth v = o ∨ ¬ P v ∧ (o.visit depth v).ragged = true) :
    (∀ v ∈ vs, P v) ∧ o.visitAll depth vs = o ∨
      (¬ ∀ v ∈ vs, P v) ∧ (o.visitAll depth vs).ragged = true := by
  induction vs with
  | nil => exact .inl ⟨List.forall_mem_nil _, rfl⟩
  | cons v vs ih =>
    obtain ⟨hv, hvs⟩ := List.forall_mem_cons.1 h
    rw [visitAll, List.forall_mem_cons]
    rcases hv with ⟨hp, hv⟩ | ⟨hp, hv⟩
    · rw [hv]
      rcases ih hvs with ⟨hall, ho⟩ | ⟨hall, ho⟩
      · exact .inl ⟨⟨hp, hall⟩, ho⟩
      · exact .inr ⟨fun h => hall h.2, ho⟩
    · exact .inr ⟨fun h => hp h.1, ragged_visitAll (fun v _ _ h => ragged_visit v h _) hv⟩

/-- **A part of an array with a known shape**: it must have the sizes that are left. -/
theorem visit_closed (hzero : 0 ∉ shape.dropLast) (v : Value) (hdepth : depth ≤ shape.length) :
    v.HasShape (shape.drop depth) ∧ (closed shape).visit depth v = closed shape ∨
      ¬ v.HasShape (shape.drop depth) ∧ ((closed shape).visit depth v).ragged = true := by
  induction v using Value.part_induction generalizing depth with
  | array mark kind sizes items =>
    rw [Value.HasShape, visit, eq_comm]
    by_cases h : shape.drop depth = sizes
    · exact .inl ⟨h, congrArg Prod.fst (meet_closed hdepth h)⟩
    · exact .inr ⟨h, ragged_meet_closed hdepth h⟩
  | tuple items ih =>
    rw [visit]
    cases hdrop : shape.drop depth with
    | nil =>
      have hdims : depth = (closed shape).dims := by
        have := List.drop_eq_nil_iff.1 hdrop
        exact le_antisymm hdepth this
      rw [if_pos hdims]
      exact .inr ⟨id, rfl⟩
    | cons n rest =>
      have hlength : depth < shape.length := by
        by_contra hge
        rw [List.drop_eq_nil_of_le (by omega)] at hdrop
        cases hdrop
      have hrest : shape.drop (depth + 1) = rest := by
        rw [← List.drop_drop, hdrop, List.drop_one, List.tail_cons]
      rw [if_neg (show ¬ depth = (closed shape).dims from hlength.ne), Value.HasShape,
        Value.allHaveShape_iff]
      by_cases hn : n = items.length
      · subst hn
        rw [meet_closed_sequence hdrop]
        cases items with
        | nil =>
          -- A size zero is the last one.
          have hlast : depth + 1 = shape.length := by
            by_contra hne
            refine hzero (List.mem_iff_getElem.2 ⟨depth, ?_, ?_⟩)
            · rw [List.length_dropLast]
              omega
            · rw [List.getElem_dropLast]
              have := congrArg List.head? hdrop
              rw [List.head?_drop, List.getElem?_eq_getElem hlength] at this
              exact Option.some.inj this
          have hnil : rest = [] := by
            rw [← hrest, List.drop_eq_nil_of_le hlast.ge]
          exact .inl ⟨⟨rfl, fun _ => hnil, List.forall_mem_nil _⟩, by simp [closed, hlast]⟩
        | cons v vs =>
          have hparts : ∀ u ∈ v :: vs, u.HasShape rest ∧
              (closed shape).visit (depth + 1) u = closed shape ∨ ¬ u.HasShape rest ∧
                ((closed shape).visit (depth + 1) u).ragged = true := by
            intro u hu
            rw [← hrest]
            exact ih u hu hlength
          rcases visitAll_cases hparts with ⟨hall, ho⟩ | ⟨hall, ho⟩
          · exact .inl ⟨⟨rfl, fun h => (List.cons_ne_nil _ _ h).elim, hall⟩, ho⟩
          · exact .inr ⟨fun h => hall h.2.2, ho⟩
      · obtain ⟨o, hmeet, ho⟩ := ragged_meet_closed_sequence hdrop hn
        rw [hmeet]
        exact .inr ⟨fun h => hn h.1.symm, ho⟩
  | single v hv =>
    rw [visit_single hv, Value.hasShape_single hv]
    by_cases h : shape.drop depth = []
    · exact .inl ⟨h, congrArg Prod.fst (meet_closed hdepth h)⟩
    · exact .inr ⟨h, ragged_meet_closed hdepth h⟩

/-- All parts of an array with a known shape. -/
theorem visitAll_closed {s : List Nat} (hzero : 0 ∉ (shape ++ s).dropLast) (vs : List Value) :
    (∀ v ∈ vs, v.HasShape s) ∧
      (closed (shape ++ s)).visitAll shape.length vs = closed (shape ++ s) ∨
    (¬ ∀ v ∈ vs, v.HasShape s) ∧
      ((closed (shape ++ s)).visitAll shape.length vs).ragged = true := by
  refine visitAll_cases fun v _ => ?_
  have h := visit_closed hzero v (shape.length_append ▸ Nat.le_add_right _ _)
  rwa [List.drop_left] at h

/-- An outline gets closed by the sizes with a property, if there is room for as many dimensions,
    and else it gets ragged. -/
def Closes (o : Outline) (shape : List Nat) (P : List Nat → Prop) : Prop :=
  (∃ s, P s ∧ shape.length + s.length ≤ 64 ∧ o = closed (shape ++ s)) ∨
    (∀ s, P s → 64 < shape.length + s.length) ∧ o.ragged = true

/-- The first part tells the shape, and all others must have it. -/
theorem visitAll_opened (hzero : 0 ∉ shape) (hv : v.Full)
    (hfirst : Closes ((opened shape).visit shape.length v) shape v.HasShape) (vs : List Value) :
    Closes ((opened shape).visitAll shape.length (v :: vs)) shape
      fun s => ∀ u ∈ v :: vs, u.HasShape s := by
  rw [visitAll]
  rcases hfirst with ⟨s, hs, hroom, hvisit⟩ | ⟨hnone, hvisit⟩
  · have hlast : 0 ∉ (shape ++ s).dropLast := by
      cases s with
      | nil =>
        rw [List.append_nil]
        exact fun h => hzero (List.mem_of_mem_dropLast h)
      | cons n s =>
        rw [List.dropLast_append_cons]
        exact fun h => (List.mem_append.1 h).elim hzero (hs.zero_last hv)
    rw [hvisit]
    rcases visitAll_closed hlast vs with ⟨hall, ho⟩ | ⟨hall, ho⟩
    · exact .inl ⟨s, List.forall_mem_cons.2 ⟨hs, hall⟩, hroom, ho⟩
    · refine .inr ⟨fun t ht => ?_, ho⟩
      obtain ⟨hv', hvs'⟩ := List.forall_mem_cons.1 ht
      exact absurd (hs.unique hv' ▸ hvs') hall
  · exact .inr ⟨fun s hs => hnone s (hs v (.head _)),
      ragged_visitAll (fun v _ _ h => ragged_visit v h _) hvisit⟩

/-- **The first part of an array** tells the shape, if there is room for its dimensions. -/
theorem visit_opened (hv : v.Full) (hzero : 0 ∉ shape) (hdepth : shape.length ≤ 64) :
    Closes ((opened shape).visit shape.length v) shape v.HasShape := by
  induction v using Value.part_induction generalizing shape with
  | array mark kind sizes items =>
    by_cases h : shape.length + sizes.length ≤ 64
    · exact .inl ⟨sizes, rfl, h, congrArg Prod.fst (meet_opened h)⟩
    · refine .inr ⟨fun s hs => ?_, ragged_meet_opened (by omega)⟩
      cases hs
      omega
  | tuple items ih =>
    by_cases hdims : shape.length = (opened shape).dims
    · refine .inr ⟨fun s hs => ?_, by rw [visit, if_pos hdims]⟩
      obtain ⟨t, rfl, -, -⟩ := Value.hasShape_tuple.1 hs
      rw [hdims, List.length_cons]
      exact Nat.lt_add_of_pos_right (Nat.succ_pos _)
    · have hlt : shape.length < 64 := lt_of_le_of_ne hdepth hdims
      rw [visit, if_neg hdims, meet_opened_sequence hlt]
      cases items with
      | nil =>
        refine .inl ⟨[0], Value.hasShape_tuple.2 ⟨[], rfl, fun _ => rfl, List.forall_mem_nil _⟩,
          hlt, ?_⟩
        simp [opened, closed]
      | cons v vs =>
        have hzero' : 0 ∉ shape ++ [(v :: vs).length] := by simpa using hzero
        have hlength : (shape ++ [(v :: vs).length]).length = shape.length + 1 := by simp
        have hfull := (List.forall_mem_cons.1 (Value.allFull_iff.1 hv)).1
        have hall := visitAll_opened hzero' hfull
          (ih v (.head _) hfull hzero' (hlength ▸ hlt)) vs
        rw [hlength] at hall
        simp only [List.isEmpty_cons, Bool.false_eq_true, if_false]
        rcases hall with ⟨s, hs, hroom, ho⟩ | ⟨hnone, ho⟩
        · refine .inl ⟨(v :: vs).length :: s, ?_, ?_, ?_⟩
          · exact Value.hasShape_tuple.2 ⟨s, rfl, fun h => (List.cons_ne_nil _ _ h).elim, hs⟩
          · rw [List.length_cons]
            omega
          · rw [ho, List.append_assoc, List.singleton_append]
        · refine .inr ⟨fun t ht => ?_, ho⟩
          obtain ⟨t, rfl, -, ht⟩ := Value.hasShape_tuple.1 ht
          have := hnone t ht
          rw [List.length_cons]
          omega
  | single v hsingle =>
    have hroom : shape.length + ([] : List Nat).length ≤ 64 := hdepth
    refine .inl ⟨[], (Value.hasShape_single hsingle).2 rfl, hroom, ?_⟩
    rw [visit_single hsingle, meet_opened hroom]

end Outline

/-! ## Items -/

theorem sizeOfShape_cons (n : Nat) (s : List Nat) : sizeOfShape (n :: s) = n * sizeOfShape s := by
  simp only [sizeOfShape, ← List.prod_eq_foldl, List.prod_cons]

theorem itemsWithinAll_eq (vs : List Value) : itemsWithinAll vs = vs.flatMap itemsWithin := by
  induction vs with
  | nil => rfl
  | cons v vs ih => rw [itemsWithinAll, ih, List.flatMap_cons]

theorem itemsWithin_single {v : Value} (h : v.isSingle = true) : itemsWithin v = [v] := by
  cases v <;> first | rfl | cases h

theorem length_itemsWithin {v : Value} (hv : v.Full) {s : List Nat} (hs : v.HasShape s) :
    (itemsWithin v).length = sizeOfShape s := by
  induction v using Value.part_induction generalizing s with
  | array mark kind shape items =>
    cases hs
    exact hv.2.2
  | tuple items ih =>
    obtain ⟨s, rfl, hnil, hs⟩ := Value.hasShape_tuple.1 hs
    have hfull := Value.allFull_iff.1 hv
    rw [itemsWithin, itemsWithinAll_eq, List.length_flatMap, sizeOfShape_cons,
      List.map_congr_left fun v hmem => ih v hmem (hfull v hmem) (hs v hmem)]
    simp
  | single v hsingle =>
    rw [itemsWithin_single hsingle, (Value.hasShape_single hsingle).1 hs]
    rfl

theorem row_flatMap {α : Type} {f : α → List Value} {size : Nat} :
    ∀ {rows : List α}, (∀ r ∈ rows, (f r).length = size) → ∀ {i : Nat} {r : α}, rows[i]? = some r →
      ((rows.flatMap f).drop (i * size)).take size = f r
  | r :: rows, h, 0, _, rfl => by
    rw [List.flatMap_cons, Nat.zero_mul, List.drop_zero, ← h r (.head _), List.take_left]
  | r :: rows, h, i + 1, _, hr => by
    obtain ⟨hr', hrows⟩ := List.forall_mem_cons.1 h
    rw [List.flatMap_cons, Nat.succ_mul, Nat.add_comm, ← List.drop_drop, ← hr', List.drop_left, hr']
    exact row_flatMap hrows hr

/-! ## Arrays -/

namespace Grid

variable {vs : List Value}

def kindOf (vs : List Value) : ItemKind := (kindAfterAll none vs).getD .float

/-- **Values of one shape become an array**, if there is room for its dimensions. -/
theorem ofValues_ok (hfull : ∀ v ∈ vs, v.Full) {s : List Nat} (hs : (Value.tuple vs).HasShape s)
    (hroom : s.length ≤ 64) :
    ofValues vs = .ok ⟨kindOf vs, s, (itemsWithinAll vs).map (kindOf vs).cast⟩ := by
  have hvisit := Outline.visit_opened (v := .tuple vs) (Value.allFull_iff.2 hfull)
    List.not_mem_nil (Nat.zero_le 64)
  rcases hvisit with ⟨t, ht, -, ho⟩ | ⟨hnone, -⟩
  · cases hs.unique ht
    have hstart : Outline.start.visit 0 (.tuple vs) = Outline.closed s := ho
    simp only [ofValues, hstart, Outline.closed, List.take_length, Bool.false_eq_true, if_false]
    rfl
  · have := hnone s hs
    rw [List.length_nil] at this
    omega

/-- **Other values do not.** -/
theorem ofValues_ragged (hfull : ∀ v ∈ vs, v.Full)
    (h : ∀ s, (Value.tuple vs).HasShape s → 64 < s.length) :
    ∃ shape, ofValues vs = .error (.ragged shape) := by
  have hvisit := Outline.visit_opened (v := .tuple vs) (Value.allFull_iff.2 hfull)
    List.not_mem_nil (Nat.zero_le 64)
  rcases hvisit with ⟨s, hs, hroom, -⟩ | ⟨-, hragged⟩
  · have := h s hs
    rw [List.length_nil] at hroom
    omega
  · have hstart : (Outline.start.visit 0 (.tuple vs)).ragged = true := hragged
    exact ⟨_, if_pos hstart⟩

/-- The part of an array at a position. -/
theorem at?_row (hfull : ∀ v ∈ vs, v.Full) {s : List Nat} (hs : ∀ v ∈ vs, v.HasShape s)
    (kind : ItemKind) {i : Nat} {v : Value} (hi : vs[i]? = some v) :
    at? ⟨kind, vs.length :: s, (itemsWithinAll vs).map kind.cast⟩ i =
      some (toValue ⟨kind, s, (itemsWithin v).map kind.cast⟩) := by
  have hlt : i < vs.length := (List.getElem?_eq_some_iff.1 hi).1
  have hrow : (((itemsWithinAll vs).map kind.cast).drop (i * sizeOfShape s)).take (sizeOfShape s) =
      (itemsWithin v).map kind.cast := by
    rw [itemsWithinAll_eq, ← List.map_drop, ← List.map_take,
      row_flatMap (fun v hv => length_itemsWithin (hfull v hv) (hs v hv)) hi]
  simp only [at?]
  rw [if_neg (by omega), if_neg (by omega), Int.toNat_natCast, hrow]

end Grid

end ExprLang
