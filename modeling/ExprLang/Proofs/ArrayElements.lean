/-
  The elements of arrays.

  An array is made of values by an array literal, by the function `array`, and for the last
  parameter of a function that takes the rest (`ArrayPlaces`).  All items become of one kind, so what
  becomes of a value depends on the others: a list becomes an array, a boolean next to numbers a
  number, and anything next to a text a text, unless there is a value that only an object array can
  hold.

  The arrays themselves come from a library, of which only what it documents is used.

  * `ItemKind` is ordered by what can be converted to what, and `CommonKind` is the least kind for
    the items of some values;
  * `ArrayLibrary.Documented`: values of one shape become an array of their common kind, others are
    refused; `Grid.documented`: so does `Grid.ofValues`;
  * `ItemKind.cast_eq_item_iff`: an item stays the same if it has the kind of the array already;
  * `Value.StaysAmong`: a value keeps its kind and contents in a row of values, and
    `item_element_iff`;
  * `array_elements`: when an array is made, and what its elements are.
-/
import ExprLang.Proofs.ArrayShapes
import ExprLang.Proofs.Runs
import ExprLang.Proofs.Scopes
import ExprLang.Session

namespace ExprLang

/-! ## Kinds -/

namespace ItemKind

/-- Items of the first kind can become items of the second.  Neither of the two kinds of integers
    takes the other. -/
def Fits : ItemKind → ItemKind → Prop
  | bool, _ => True
  | _, object => True
  | object, _ => False
  | _, text _ => True
  | text _, _ => False
  | _, float => True
  | float, _ => False
  | int, int | word, word => True
  | _, _ => False

instance : Preorder ItemKind where
  le := Fits
  le_refl k := by cases k <;> trivial
  le_trans i j k := by cases i <;> cases j <;> cases k <;> simp [Fits]

theorem le_iff_fits {j k : ItemKind} : j ≤ k ↔ Fits j k := Iff.rfl

theorem join_le_iff {j k l : ItemKind} : j.join k ≤ l ↔ j ≤ l ∧ k ≤ l := by
  cases j <;> cases k <;> cases l <;> simp [le_iff_fits, Fits, join]

theorem object_le_iff {k : ItemKind} : object ≤ k ↔ k = object := by
  cases k <;> simp [le_iff_fits, Fits]

theorem le_text_iff {k : ItemKind} {width : Nat} : k ≤ text width ↔ k ≠ object := by
  cases k <;> simp [le_iff_fits, Fits]

end ItemKind

mutual

def kindsWithin : Value → List ItemKind
  | .array _ k _ _ => [k]
  | .tuple items => kindsWithinAll items
  | v => [.ofValue v]

def kindsWithinAll : List Value → List ItemKind
  | [] => []
  | v :: vs => kindsWithin v ++ kindsWithinAll vs

end

/-- The kind of an array of some values is the least that takes all items; it is one of floats if
    there are none. -/
def CommonKind (vs : List Value) (k : ItemKind) : Prop :=
  if kindsWithinAll vs = [] then k = .float else IsLUB {j | j ∈ kindsWithinAll vs} k

theorem kindsWithin_single {v : Value} (h : v.isSingle = true) :
    kindsWithin v = [.ofValue v] := by
  cases v <;> first | rfl | cases h

theorem kindsWithinAll_single {vs : List Value} (h : ∀ v ∈ vs, v.isSingle = true) :
    kindsWithinAll vs = vs.map .ofValue := by
  induction vs with
  | nil => rfl
  | cons v vs ih =>
    obtain ⟨hv, hvs⟩ := List.forall_mem_cons.1 h
    rw [kindsWithinAll, kindsWithin_single hv, ih hvs]
    rfl

/-! ## Libraries of arrays -/

/-- What is documented of a library: values of one shape become an array of their items, converted
    to the common kind, and other values do not become an array. -/
structure ArrayLibrary.Documented (lib : ArrayLibrary) : Prop where
  even : ∀ {vs : List Value} {s : List Nat}, vs ≠ [] → (∀ v ∈ vs, v.Full) →
    (∀ v ∈ vs, v.HasShape s) → s.length < 64 → ∃ k, CommonKind vs k ∧
      lib.array vs = .ok ⟨k, vs.length :: s, (itemsWithinAll vs).map k.cast⟩
  uneven : ∀ {vs : List Value}, (∀ v ∈ vs, v.Full) →
    (∀ s, (∀ v ∈ vs, v.HasShape s) → 64 ≤ s.length) →
    ∃ shape, lib.array vs = .error (.ragged shape)

theorem foldl_after (ks : List ItemKind) (j : ItemKind) :
    ∃ k, ks.foldl (fun met k => some (ItemKind.after met k)) (some j) = some k ∧
      ∀ l, k ≤ l ↔ j ≤ l ∧ ∀ i ∈ ks, i ≤ l := by
  induction ks generalizing j with
  | nil => exact ⟨j, rfl, by simp⟩
  | cons i ks ih =>
    obtain ⟨k, hk, hle⟩ := ih (j.join i)
    refine ⟨k, hk, fun l => ?_⟩
    rw [hle, ItemKind.join_le_iff, List.forall_mem_cons, and_assoc]

theorem kindAfterAll_eq {met : Option ItemKind} {vs : List Value}
    (h : ∀ v ∈ vs, ∀ met, kindAfter met v =
      (kindsWithin v).foldl (fun met k => some (ItemKind.after met k)) met) :
    kindAfterAll met vs =
      (kindsWithinAll vs).foldl (fun met k => some (ItemKind.after met k)) met := by
  induction vs generalizing met with
  | nil => rfl
  | cons v vs ih =>
    obtain ⟨hv, hvs⟩ := List.forall_mem_cons.1 h
    rw [kindAfterAll, kindsWithinAll, List.foldl_append, hv, ih hvs]

theorem kindAfter_eq (v : Value) (met : Option ItemKind) : kindAfter met v =
    (kindsWithin v).foldl (fun met k => some (ItemKind.after met k)) met := by
  induction v using Value.part_induction generalizing met with
  | array => rfl
  | tuple items ih => exact kindAfterAll_eq ih
  | single v h =>
    rw [kindsWithin_single h]
    cases v <;> first | rfl | cases h

theorem Grid.commonKind_kindOf (vs : List Value) : CommonKind vs (kindOf vs) := by
  rw [CommonKind, kindOf, kindAfterAll_eq fun v _ => kindAfter_eq v]
  cases hkinds : kindsWithinAll vs with
  | nil => rw [if_pos rfl, List.foldl_nil, Option.getD_none]
  | cons j ks =>
    obtain ⟨k, hk, hle⟩ := foldl_after ks j
    rw [if_neg (List.cons_ne_nil _ _), List.foldl_cons, ItemKind.after, hk, isLUB_iff_le_iff]
    intro l
    rw [Option.getD_some, hle, mem_upperBounds]
    simp

theorem hasShape_values {vs : List Value} {s : List Nat} (hne : vs ≠ [])
    (hs : ∀ v ∈ vs, v.HasShape s) : (Value.tuple vs).HasShape (vs.length :: s) :=
  Value.hasShape_tuple.2 ⟨s, rfl, fun h => absurd h hne, hs⟩

/-- **The arrays that programs have are the documented ones.** -/
theorem Grid.documented : ArrayLibrary.standard.Documented where
  even {vs s} hne hfull hs hroom :=
    ⟨kindOf vs, commonKind_kindOf vs, ofValues_ok hfull (hasShape_values hne hs) hroom⟩
  uneven {vs} hfull h := by
    refine ofValues_ragged hfull fun s hs => ?_
    obtain ⟨t, rfl, -, ht⟩ := Value.hasShape_tuple.1 hs
    exact Nat.lt_succ_of_le (h t ht)

/-! ## Items -/

namespace Value

/-- The plain value that a scalar is; an integer without a sign is an integer. -/
def item : Value → Value
  | .word w | .scalar _ (.word w) => .int w.toNat
  | .scalar _ v => v
  | v => v

theorem item_scalar (m n : Nat) (v : Value) : (scalar m v).item = (scalar n v).item := by
  cases v <;> rfl

def EndsInNull (v : Value) : Prop := ∃ s, v.item = .text s ∧ s.toList.getLast? = some '\x00'

end Value

theorem trimNulls_eq_iff (s : String) : trimNulls s = s ↔ s.toList.getLast? ≠ some '\x00' := by
  have hends : s.endsWith "\x00" = true ↔ s.toList.getLast? = some '\x00' := by
    rw [String.endsWith_eq_endsWith_toSlice, String.Slice.endsWith_string_iff,
      ← List.singleton_suffix_iff_getLast?_eq_some]
    simp
  rw [trimNulls]
  split
  · rename_i h
    refine iff_of_false (fun heq => ?_) (not_not.2 (hends.1 h))
    have hlist := congrArg String.toList heq
    rw [String.toList_ofList] at hlist
    have hlast := congrArg List.getLast? hlist
    rw [hends.1 h, List.getLast?_reverse] at hlast
    have := List.head?_dropWhile_not (· == '\x00') s.toList.reverse
    rw [hlast] at this
    simp at this
  · rename_i h
    exact iff_of_true rfl (mt hends.2 h)

namespace ItemKind

variable {k : ItemKind} {v : Value}

/-- An integer is of a kind that it fits in. -/
theorem ofInt_cases (i : Int) :
    ofInt i = int ∨ ofInt i = word ∧ ((UInt64.ofInt i).toNat : Int) = i ∨ ofInt i = object := by
  unfold ofInt
  split
  · exact .inl rfl
  · split
    · rename_i h
      refine .inr (.inl ⟨rfl, ?_⟩)
      obtain ⟨n, rfl⟩ := Int.eq_ofNat_of_zero_le h.1
      have hn : n < 2 ^ 64 := by
        have := h.2
        norm_cast at this
      simp [UInt64.ofInt]
      omega
    · exact .inr (.inr rfl)

/-- An item stays the same in an array whose kind it has already, unless it is a text that loses
    null characters; here for an item that is no scalar. -/
theorem cast_eq_plain_iff (hk : k ≠ object) (hplain : ∀ m x, v ≠ .scalar m x)
    (hle : ofValue v ≤ k) : (Value.scalar 0 (k.cast v)).item = v.item ↔
      k ≤ ofValue v ∧ ¬ v.EndsInNull := by
  have hv : ofValue v ≠ object := fun h => hk (object_le_iff.1 (h ▸ hle))
  cases v with
  | int i =>
    rcases ofInt_cases i with h | ⟨h, hi⟩ | h
    · simp only [ofValue, h] at hle ⊢
      cases k <;> simp [cast, le_iff_fits, Fits, Value.item, Value.EndsInNull] at hk hle ⊢
    · simp only [ofValue, h] at hle ⊢
      cases k <;> simp [cast, le_iff_fits, Fits, Value.item, Value.EndsInNull, hi] at hk hle ⊢
    · exact absurd h hv
  | scalar m x => exact absurd rfl (hplain m x)
  | bool | word | float | nan | text =>
    cases k <;>
      simp [cast, ofValue, le_iff_fits, Fits, Value.item, Value.EndsInNull, trimNulls_eq_iff]
        at hk hle ⊢
  | _ => exact absurd rfl hv

/-- **An item stays the same** in an array whose kind it has already, unless it is a text that loses
    null characters. -/
theorem cast_eq_item_iff (hk : k ≠ object) (hle : ofValue v ≤ k) :
    (Value.scalar 0 (k.cast v)).item = v.item ↔ k ≤ ofValue v ∧ ¬ v.EndsInNull := by
  cases v with
  | scalar m x =>
    have hx : ofValue (.scalar m x) ≠ object := fun h => hk (object_le_iff.1 (h ▸ hle))
    have hcast : k.cast (.scalar m x) = k.cast x := by
      cases k <;> cases x <;> first | rfl | exact absurd rfl hk | exact absurd rfl hx
    rw [hcast]
    cases x with
    | bool | int | word | float | nan | text =>
      exact cast_eq_plain_iff hk (fun _ _ h => Value.noConfusion h) hle
    | _ => exact absurd rfl hx
  | _ => exact cast_eq_plain_iff hk (fun _ _ h => Value.noConfusion h) hle

end ItemKind

/-! ## Elements -/

/-- Among some values a value keeps its kind and contents: it is no list, and one of them can only
    be kept as it is, or all of them can be made of its kind and it loses no null characters. -/
def Value.StaysAmong (v : Value) (vs : List Value) : Prop :=
  v.isSingle = true ∧ ((∃ u ∈ vs, ItemKind.ofValue u = .object) ∨
    (∀ u ∈ vs, ItemKind.ofValue u ≤ ItemKind.ofValue v) ∧ ¬ v.EndsInNull)

section
variable {vs : List Value} {s : List Nat} {v : Value} {k : ItemKind}

theorem Value.isArray_single (h : v.isSingle = true) : v.isArray = false := by
  cases v <;> first | rfl | cases h

theorem isSingle_of_hasShape (hfull : ∀ v ∈ vs, v.Full) (hs : ∀ v ∈ vs, v.HasShape []) :
    ∀ v ∈ vs, v.isSingle = true := by
  intro v hv
  cases v with
  | array => exact absurd (hs _ hv) (hfull _ hv).1
  | tuple => exact (hs _ hv).elim
  | _ => rfl

theorem CommonKind.le_iff (hk : CommonKind vs k) (hne : vs ≠ [])
    (hsingle : ∀ v ∈ vs, v.isSingle = true) (l : ItemKind) :
    k ≤ l ↔ ∀ u ∈ vs, ItemKind.ofValue u ≤ l := by
  rw [CommonKind, kindsWithinAll_single hsingle, if_neg (by simpa using hne)] at hk
  rw [isLUB_le_iff hk, mem_upperBounds]
  simp

theorem CommonKind.object_iff (hk : CommonKind vs k) (hne : vs ≠ [])
    (hsingle : ∀ v ∈ vs, v.isSingle = true) :
    k = .object ↔ ∃ u ∈ vs, ItemKind.ofValue u = .object := by
  have htext := hk.le_iff hne hsingle (.text 0)
  simp only [ItemKind.le_text_iff] at htext
  rw [← not_iff_not, ← ne_eq, htext]
  simp

def element (k : ItemKind) (s : List Nat) (v : Value) : Value :=
  Grid.toValue ⟨k, s, (itemsWithin v).map k.cast⟩

theorem element_object (hsingle : v.isSingle = true) : element .object [] v = v := by
  rw [element, itemsWithin_single hsingle]
  rfl

theorem element_plain (hsingle : v.isSingle = true) (hk : k ≠ .object) :
    element k [] v = .scalar 0 (k.cast v) := by
  rw [element, itemsWithin_single hsingle]
  exact if_neg hk

theorem element_cons (n : Nat) (t : List Nat) :
    element k (n :: t) v = .array 0 k (n :: t) ((itemsWithin v).map k.cast) :=
  rfl

/-- **A value keeps its kind and contents** as an element under the stated condition. -/
theorem item_element_iff (hk : CommonKind vs k) (hfull : ∀ v ∈ vs, v.Full)
    (hs : ∀ v ∈ vs, v.HasShape s) (hv : v ∈ vs) (harray : v.isArray = false) :
    (element k s v).item = v.item ↔ v.StaysAmong vs := by
  by_cases hsingle : v.isSingle = true
  · have hnil := (Value.hasShape_single hsingle).1 (hs v hv)
    subst hnil
    have hne := List.ne_nil_of_mem hv
    have hall := isSingle_of_hasShape hfull hs
    have hle := hk.le_iff hne hall
    rw [Value.StaysAmong, and_iff_right hsingle, ← hk.object_iff hne hall]
    by_cases hobject : k = .object
    · rw [hobject, element_object hsingle]
      exact iff_of_true rfl (.inl rfl)
    · rw [element_plain hsingle hobject, or_iff_right hobject, ← hle]
      exact ItemKind.cast_eq_item_iff hobject ((hle k).1 le_rfl v hv)
  · refine iff_of_false ?_ fun h => hsingle h.1
    -- Only lists are left, which are arrays as elements.
    cases v with
    | array => cases harray
    | tuple items =>
      obtain ⟨t, rfl, -, -⟩ := Value.hasShape_tuple.1 (hs _ hv)
      rw [element_cons]
      exact fun h => Value.noConfusion h
    | _ => exact absurd rfl hsingle

end

/-! ## Arrays of values -/

def makeArray [ArrayLibrary] (vs : List Value) : Run Value :=
  Run.fresh (return (← ArrayLibrary.array vs).toValue)

def takeElement (a i : Value) : Run Value := do Run.part a (a.index (← Run.world).scopes i)

theorem Value.withMark_withMark (v : Value) (m n : Nat) :
    (v.withMark m).withMark n = v.withMark n := by
  cases v <;> rfl

theorem exec_stamp (v : Value) (w : World) :
    ∃ u, (Run.stamp v).exec w = (.ok (v.withMark (w.lastMark + 1)), u) ∧ u.scopes = w.scopes := by
  cases v <;> exact ⟨_, rfl, rfl⟩

def arrayOf (mark : Nat) (k : ItemKind) (vs : List Value) (s : List Nat) : Value :=
  .array mark k (vs.length :: s) ((itemsWithinAll vs).map k.cast)

section
variable {vs : List Value} {s : List Nat} {k : ItemKind}

theorem full_arrayOf (hne : vs ≠ []) (hfull : ∀ v ∈ vs, v.Full) (hs : ∀ v ∈ vs, v.HasShape s)
    (mark : Nat) : (arrayOf mark k vs s).Full := by
  have hvs : (Value.tuple vs).Full := Value.allFull_iff.2 hfull
  have hshape := hasShape_values hne hs
  refine ⟨List.cons_ne_nil _ _, hshape.zero_last hvs, ?_⟩
  rw [List.length_map]
  exact length_itemsWithin hvs hshape

theorem position_arrayOf (hfull : ∀ v ∈ vs, v.Full) (hs : ∀ v ∈ vs, v.HasShape s) {n : Nat}
    {v : Value} (hn : vs[n]? = some v) (mark : Nat) (scopes : Forest Value Nat) :
    (arrayOf mark k vs s).position scopes n = .ok (element k s v) := by
  rw [arrayOf, Value.position, Grid.at?_row hfull hs _ hn]
  rfl

theorem item_withMark_element {v : Value} (hv : v.HasShape s) (harray : v.isArray = false)
    {mark : Nat} (hnew : (arrayOf mark k vs s).hasNewParts = true) (n : Nat) :
    ((element k s v).withMark n).item = v.item ↔ (element k s v).item = v.item := by
  cases v with
  | array => cases harray
  | tuple items =>
    obtain ⟨t, rfl, -, -⟩ := Value.hasShape_tuple.1 hv
    rw [element_cons]
    exact iff_of_false (fun h => Value.noConfusion h) fun h => Value.noConfusion h
  | _ =>
    obtain rfl := (Value.hasShape_single rfl).1 hv
    have hk : k ≠ .object := by
      intro hk
      rw [arrayOf, hk] at hnew
      cases hnew
    rw [element_plain rfl hk, Value.withMark, Value.item_scalar n 0]

theorem takeElement_ok (hfull : ∀ v ∈ vs, v.Full) (hs : ∀ v ∈ vs, v.HasShape s) {n : Nat}
    {v i : Value} (hn : vs[n]? = some v) (hi : i.toInt = .ok (n : Int)) (mark : Nat) (w : World) :
    ∃ e u, (takeElement (arrayOf mark k vs s) i).exec w = (.ok e, u) ∧
      e.withMark 0 = (element k s v).withMark 0 ∧
      (v.isArray = false → (e.item = v.item ↔ (element k s v).item = v.item)) := by
  have hindex : (arrayOf mark k vs s).index w.scopes i = .ok (element k s v) := by
    rw [← position_arrayOf hfull hs hn mark w.scopes, arrayOf, Value.index, hi]
    · rfl
    · exact fun _ h => Value.noConfusion h
  have hexec : (takeElement (arrayOf mark k vs s) i).exec w =
      (Run.part (arrayOf mark k vs s) ((arrayOf mark k vs s).index w.scopes i)).exec w := rfl
  rw [hexec, hindex, Run.part]
  by_cases hnew : (arrayOf mark k vs s).hasNewParts = true
  · rw [if_pos hnew]
    obtain ⟨u, hu, -⟩ := exec_stamp (element k s v) w
    refine ⟨_, u, hu, ?_, fun harray => ?_⟩
    · exact Value.withMark_withMark ..
    · exact item_withMark_element (hs v (List.mem_of_getElem? hn)) harray hnew _
  · rw [if_neg hnew]
    exact ⟨_, w, rfl, rfl, fun _ => Iff.rfl⟩

end

section
variable [lib : ArrayLibrary] {vs : List Value} {s : List Nat}

theorem makeArray_ok (hlib : lib.Documented) (hne : vs ≠ []) (hfull : ∀ v ∈ vs, v.Full)
    (hs : ∀ v ∈ vs, v.HasShape s) (hroom : s.length < 64) (w : World) :
    ∃ k u, CommonKind vs k ∧
      (makeArray vs).exec w = (.ok (arrayOf (w.lastMark + 1) k vs s), u) := by
  obtain ⟨k, hk, harray⟩ := hlib.even hne hfull hs hroom
  obtain ⟨u, hu, -⟩ := exec_stamp (arrayOf 0 k vs s) w
  refine ⟨k, u, hk, ?_⟩
  rw [makeArray, harray]
  exact hu

theorem makeArray_ragged (hlib : lib.Documented) (hfull : ∀ v ∈ vs, v.Full)
    (h : ∀ s, (∀ v ∈ vs, v.HasShape s) → 64 ≤ s.length) (w : World) :
    ∃ shape, (makeArray vs).exec w = (.error (.ragged shape), w) := by
  obtain ⟨shape, hragged⟩ := hlib.uneven hfull h
  refine ⟨shape, ?_⟩
  rw [makeArray, hragged]
  rfl

theorem scopes_makeArray (vs : List Value) (w : World) :
    ((makeArray vs).exec w).2.scopes = w.scopes := by
  rw [makeArray, Run.fresh, ExceptT.exec_bind, Run.exec_ofExcept]
  cases lib.array vs with
  | error f => rfl
  | ok g =>
    obtain ⟨u, hu, hscopes⟩ := exec_stamp g.toValue w
    show ((Run.stamp g.toValue).exec w).2.scopes = _
    rw [hu, hscopes]

/-! ## Places -/

/-- Where arrays of some values are made, and where elements are taken. -/
structure ArrayPlaces (vs : List Value) : Prop where
  /-- An array literal whose parts have these values. -/
  literal : ∀ (room : Nat) (go : Nat → Evaluator Run) (pos : Pos) (es : List Expr) (scope : Nat)
    (w u : World), (es.mapM (go 1 · scope)).exec w = (.ok vs, u) →
    (evalNode room go (.array pos es) scope).exec w = (makeArray vs).exec u
  /-- A call of `array`. -/
  function : ∀ (room : Nat) (go : Nat → Evaluator Run),
    call (room + 1) go (.builtin .array) vs = makeArray vs
  /-- A call of a function that takes them as the rest: its body finds the array in the last
      parameter. -/
  rest : ∀ (room : Nat) (go : Nat → Evaluator Run) (scope : Nat) (params : List String) (p : String)
    (body : Expr) (locals : Option (List String)) (us : List Value) (w : World),
    us.length = params.length → ∃ inner w',
      (∀ f u, (makeArray vs).exec w' = (.error f, u) →
        (call room go (.closure scope (params ++ [p]) body true locals) (us ++ vs)).exec w =
          (.error f, u)) ∧
      ∀ a u, (makeArray vs).exec w' = (.ok a, u) → ∃ u', u'.scopes.get? inner p = some a ∧
        (call room go (.closure scope (params ++ [p]) body true locals) (us ++ vs)).exec w =
          (go closureCalls body inner).exec u'
  /-- An element by its index. -/
  element : ∀ (room : Nat) (go : Nat → Evaluator Run) (pos : Pos) (array index : Expr) (scope : Nat)
    (a i : Value) (w w' u : World), (go 0 array scope).exec w = (.ok a, w') →
    (go 0 index scope).exec w' = (.ok i, u) →
    (evalNode room go (.index pos array index) scope).exec w = (takeElement a i).exec u

/-- The parameters before the last one are bound to the first arguments. -/
theorem exec_bindParams_rest (scope : Nat) (p : String) (vs : List Value) :
    ∀ {params : List String} {us : List Value}, us.length = params.length → ∀ w : World,
      ∃ w' : World, w'.scopes.size = w.scopes.size ∧
        (bindParams scope true (params ++ [p]) (us ++ vs)).exec w =
          (makeArray vs >>= fun a => Run.modifyScopes fun f => f.set scope p a).exec w'
  | [], [], _, w => ⟨w, rfl, rfl⟩
  | q :: params, v :: us, h, w => by
    obtain ⟨w', hsize, hexec⟩ := exec_bindParams_rest scope p vs (Nat.succ.inj h)
      { w with scopes := w.scopes.set scope q v }
    refine ⟨w', hsize.trans Forest.size_bind, ?_⟩
    rw [← hexec]
    cases params <;> rfl

theorem arrayPlaces (vs : List Value) : ArrayPlaces vs where
  literal room go pos es scope w u h := by
    show (es.mapM (go 1 · scope) >>= fun vs => makeArray vs).exec w = _
    rw [ExceptT.exec_bind, h]
  function room go := rfl
  rest room go scope params p body locals us w h := by
    let inner := w.scopes.size
    let opened : World := { w with
      scopes := (w.scopes.push scope (params ++ [p] ++ locals.getD []) .null).2 }
    obtain ⟨w', hsize, hbind⟩ := exec_bindParams_rest inner p vs h opened
    have hcall :
        (call room go (.closure scope (params ++ [p]) body true locals) (us ++ vs)).exec w =
          (bindParams inner true (params ++ [p]) (us ++ vs) >>=
            fun _ => go closureCalls body inner).exec opened :=
      rfl
    rw [hcall, ExceptT.exec_bind, hbind, ExceptT.exec_bind]
    refine ⟨inner, w', fun f u hu => by rw [hu], fun a u hu => ?_⟩
    have hscopes : u.scopes = w'.scopes := by
      rw [← scopes_makeArray vs w', hu]
    have hinner : inner < u.scopes.size := by
      rw [hscopes, hsize, Forest.size_push]
      exact Nat.lt_succ_self _
    rw [hu]
    exact ⟨{ u with scopes := u.scopes.set inner p a }, Forest.get?_set_self hinner, rfl⟩
  element room go pos array index scope a i w w' u ha hi := by
    show (go 0 array scope >>= fun a => go 0 index scope >>= fun i => takeElement a i).exec w = _
    rw [ExceptT.exec_bind, ha]
    show (go 0 index scope >>= fun i => takeElement a i).exec w' = _
    rw [ExceptT.exec_bind, hi]

/-! ## All arrays -/

/-- **Arrays of values.**  With a library that does what is documented, an array is made at each of
    the places exactly if the values have one shape and there is room for its dimensions.  Its
    elements are the values, converted to their common kind: a value that is no array keeps its kind
    and contents if and only if it is no list, and one of the values can only be kept as it is, or
    all of them can be made of its kind and the value is not a text that ends in a null character. -/
theorem array_elements (hlib : lib.Documented) (hne : vs ≠ []) (hfull : ∀ v ∈ vs, v.Full) :
    ArrayPlaces vs ∧
    (∀ w : World, (∀ s, (∀ v ∈ vs, v.HasShape s) → 64 ≤ s.length) →
      ∃ shape, (makeArray vs).exec w = (.error (.ragged shape), w)) ∧
    ∀ (s : List Nat) (w : World), (∀ v ∈ vs, v.HasShape s) → s.length < 64 →
      ∃ k a u, CommonKind vs k ∧ (makeArray vs).exec w = (.ok a, u) ∧ a.Full ∧
        ∀ (n : Nat) (v i : Value) (w' : World), vs[n]? = some v → i.toInt = .ok (n : Int) →
          ∃ e u', (takeElement a i).exec w' = (.ok e, u') ∧
            e.withMark 0 = (element k s v).withMark 0 ∧
            (v.isArray = false → (e.item = v.item ↔ v.StaysAmong vs)) := by
  refine ⟨arrayPlaces vs, fun w h => makeArray_ragged hlib hfull h w, fun s w hs hroom => ?_⟩
  obtain ⟨k, u, hk, hu⟩ := makeArray_ok hlib hne hfull hs hroom w
  refine ⟨k, _, u, hk, hu, full_arrayOf hne hfull hs _, fun n v i w' hn hi => ?_⟩
  obtain ⟨e, u', he, hmark, hitem⟩ := takeElement_ok hfull hs hn hi (w.lastMark + 1) w'
  refine ⟨e, u', he, hmark, fun harray => (hitem harray).trans ?_⟩
  exact item_element_iff hk hfull hs (List.mem_of_getElem? hn) harray

end

/-- Next to a text a boolean is a text, but not if there is a dictionary, too; integers stay
    integers unless some need a sign and some all 64 bits; and there is no array of a boolean and a
    list. -/
theorem array_elements_mixed :
    (∀ w : World, ∃ a u, (makeArray [.bool true, .text "a"]).exec w = (.ok a, u) ∧
      ∃ e u', (takeElement a (.bool false)).exec u = (.ok e, u') ∧ e.item ≠ .bool true) ∧
    (∀ w : World, ∃ a u, (makeArray [.bool true, .text "a", .dict []]).exec w = (.ok a, u) ∧
      ∃ e u', (takeElement a (.bool false)).exec u = (.ok e, u') ∧ e.item = .bool true) ∧
    (∀ w : World, ∃ a u, (makeArray [.int 9223372036854775808, .bool true]).exec w = (.ok a, u) ∧
      ∃ e u', (takeElement a (.bool false)).exec u = (.ok e, u') ∧
        e.item = .int 9223372036854775808) ∧
    (∀ w : World, ∃ a u, (makeArray [.int 9223372036854775808, .int 1]).exec w = (.ok a, u) ∧
      ∃ e u', (takeElement a (.bool false)).exec u = (.ok e, u') ∧
        e.item ≠ .int 9223372036854775808) ∧
    ∀ w : World, ∃ shape, (makeArray [.bool true, .nil]).exec w = (.error (.ragged shape), w) := by
  have hfirst : ∀ v vs, (v :: vs).all Value.isSingle = true → ∀ w : World, ∃ a u,
      (makeArray (v :: vs)).exec w = (.ok a, u) ∧ ∃ e u',
        (takeElement a (.bool false)).exec u = (.ok e, u') ∧
          (e.item = v.item ↔ v.StaysAmong (v :: vs)) := by
    intro v vs hsingle w
    have hall := List.all_eq_true.1 hsingle
    obtain ⟨-, -, hmade⟩ := @array_elements _ (v :: vs) Grid.documented (List.cons_ne_nil _ _)
      fun u hu => Value.full_single (hall u hu)
    obtain ⟨_, a, u, -, ha, -, helement⟩ := hmade [] w
      (fun u hu => (Value.hasShape_single (hall u hu)).2 rfl) (by decide)
    obtain ⟨e, u', he, -, hstays⟩ := helement 0 v (.bool false) u rfl rfl
    exact ⟨a, u, ha, e, u', he, hstays (Value.isArray_single (hall v (.head _)))⟩
  have hword : ItemKind.ofValue (.int 9223372036854775808) = .word := by decide
  have hint : ItemKind.ofValue (.int 1) = .int := by decide
  have hbool : ItemKind.ofValue (.bool true) = .bool := rfl
  refine ⟨fun w => ?_, fun w => ?_, fun w => ?_, fun w => ?_, fun w => ?_⟩
  · obtain ⟨a, u, ha, e, u', he, hstays⟩ := hfirst (.bool true) [.text "a"] rfl w
    refine ⟨a, u, ha, e, u', he, hstays.not.2 ?_⟩
    simp [Value.StaysAmong, ItemKind.ofValue, ItemKind.le_iff_fits, ItemKind.Fits]
  · obtain ⟨a, u, ha, e, u', he, hstays⟩ := hfirst (.bool true) [.text "a", .dict []] rfl w
    refine ⟨a, u, ha, e, u', he, hstays.2 ?_⟩
    simp [Value.StaysAmong, ItemKind.ofValue, Value.isSingle]
  · obtain ⟨a, u, ha, e, u', he, hstays⟩ := hfirst (.int 9223372036854775808) [.bool true] rfl w
    refine ⟨a, u, ha, e, u', he, hstays.2 ?_⟩
    simp [Value.StaysAmong, hword, hbool, ItemKind.le_iff_fits, ItemKind.Fits, Value.isSingle,
      Value.EndsInNull, Value.item]
  · obtain ⟨a, u, ha, e, u', he, hstays⟩ := hfirst (.int 9223372036854775808) [.int 1] rfl w
    refine ⟨a, u, ha, e, u', he, hstays.not.2 ?_⟩
    simp [Value.StaysAmong, hword, hint, ItemKind.le_iff_fits, ItemKind.Fits]
  · refine (@array_elements _ [.bool true, .nil] Grid.documented (by simp)
      (by simp [Value.Full, Value.nil, Value.AllFull])).2.1 w fun s hs => ?_
    obtain rfl : s = [] := hs _ (.head _)
    exact (hs .nil (.tail _ (.head _))).elim

/-- The first element of `[true, "a"]` is a text; and neither `array` nor a function that takes the
    rest can be called with a list and something else. -/
theorem elements_change_or_fail :
    (((Session.evalText "[true, \"a\"][false]").exec (Session.start [] [])).1.toOption.map
      fun v => (v.typeName, v.item.numeral)) = some ("numpy.str_", "True") ∧
    ((Session.evalText "array(true, list(true))").exec (Session.start [] [])).1.isOk = false ∧
    ((Session.evalText "(\\x... -> true)(true, list(true))").exec
      (Session.start [] [])).1.isOk = false := by
  decide +kernel

end ExprLang
