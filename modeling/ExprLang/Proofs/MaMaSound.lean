/-
  Code that keeps the kinds of words apart in MaMa.

  The words on the stack are basic words or references, and every instruction needs some of the one
  kind or the other.

  * `Whole want e`: no second branch is missing where a reference is wanted, as such a branch leaves
    a basic word;
  * `Held` says that a variable is a reference on the stack, and `Supplies` that a function finds
    references in the places of the parameters that it reads;
  * `Emits.strict`: if a piece is `Sound` in both ways, each instruction pushes what the generator
    expects.
-/
import ExprLang.Proofs.CMaForms
import ExprLang.Proofs.MaMaLayout
import ExprLang.Proofs.MaMaMeaning

namespace ExprLang.MaMa

open Gen

variable {e : Expr}

/-! ## Expressions -/

/-- No second branch is missing where a reference is wanted. -/
inductive Whole : Want → Option Expr → Prop where
  | missing : Whole .basic none
  | number {want p text} : Whole want (some (.number p text))
  | unary {want p op a} (ha : Whole .basic (some a)) : Whole want (some (.unary p op a))
  | binary {want p op a b} (ha : Whole .basic (some a)) (hb : Whole .basic (some b)) :
      Whole want (some (.binary p op a b))
  | var {want p x} : Whole want (some (.var p x))
  | ifThen {want p c a b} (hc : Whole .basic (some c)) (ha : Whole want (some a))
      (hb : Whole want b) : Whole want (some (.ifThen p c a b))
  | letIn {want p bs a} (hbs : ∀ b ∈ bs, Whole .reference (some b.value))
      (ha : Whole want (some a)) : Whole want (some (.letIn p bs a))
  | lambda {want p params a rest} (ha : Whole .reference (some a)) :
      Whole want (some (.lambda p params a rest))
  | call {want p e args} (he : Whole .reference (some e))
      (hargs : ∀ a ∈ args, Whole .reference (some a)) : Whole want (some (.call p e args))

/-- Every function in the expression captures exactly the variables that are free in it. -/
def Captures (e : Expr) : Prop :=
  ∀ p params a rest, e.Contains (.lambda p params a rest) → FreeVarsExact (.lambda p params a rest)

theorem Captures.part {a : Expr} (h : Captures e) (ha : a ∈ e.parts) : Captures a :=
  fun p params b rest hb => h p params b rest (.of_part ha hb)

theorem Admissible.whole (h : Admissible e) : ∀ {want : Want}, Whole want (some e) := by
  induction h with
  | number => exact .number
  | unary _ ih => exact .unary ih
  | binary _ _ iha ihb => exact .binary iha ihb
  | var => exact .var
  | ifThen _ _ _ ihc iha ihb => exact .ifThen ihc iha ihb
  | letIn _ _ _ ihbs iha => exact .letIn (fun b hb => ihbs b hb) iha
  | lambda _ _ ih => exact .lambda ih
  | call _ _ ihe ihargs => exact .call ihe fun a ha => ihargs a ha

theorem Admissible.part {a : Expr} (h : Admissible e) (ha : a ∈ e.parts) : Admissible a := by
  cases h with
  | number | var => cases ha
  | unary h | lambda _ h =>
    cases List.mem_singleton.1 ha
    exact h
  | binary h h' =>
    rcases List.mem_cons.1 ha with rfl | ha
    · exact h
    · cases List.mem_singleton.1 ha
      exact h'
  | ifThen hc h h' =>
    simp only [Expr.parts, Option.toList_some, List.mem_cons, List.not_mem_nil, or_false] at ha
    rcases ha with rfl | rfl | rfl
    · exact hc
    · exact h
    · exact h'
  | letIn _ hbs h =>
    simp only [Expr.parts, List.mem_append, List.mem_map, List.mem_singleton] at ha
    rcases ha with ⟨b, hb, rfl⟩ | rfl
    · exact hbs b hb
    · exact h
  | call he hargs =>
    rcases List.mem_cons.1 ha with rfl | ha
    · exact he
    · exact hargs a ha

theorem Admissible.captures (h : Admissible e) : Captures e := by
  intro p params a rest hf
  have hadm : Admissible (.lambda p params a rest) := by
    generalize Expr.lambda p params a rest = f at hf
    induction hf with
    | self => exact h
    | part _ ha ih => exact ih.part ha
  cases hadm with
  | lambda hx _ => exact hx

/-! ## Variables on the stack -/

namespace Frame

/-- Some more words. -/
def piled (φ : Frame) (ks : List Kind) : Frame := { φ with stack := ks ++ φ.stack }

theorem level_piled (φ : Frame) (ks : List Kind) : (φ.piled ks).level = φ.level + ks.length := by
  simp only [level, piled, List.length_append]
  omega

theorem piled_concat (φ : Frame) (ks : List Kind) (k : Kind) :
    φ.piled (ks ++ [k]) = (φ.push k).piled ks := by
  simp [piled, push]

theorem pushes_eq_piled (φ : Frame) (n : Nat) (k : Kind) :
    φ.pushes n k = φ.piled (List.replicate n k) := pushes_eq φ n k

def Holds (φ : Frame) (a : Int) (k : Kind) : Prop :=
  ∃ n : Nat, φ.level - a = n ∧ φ.words[n]? = some k

section
variable {φ : Frame} {a : Int} {k k' : Kind}

theorem Holds.push (h : φ.Holds a k) : (φ.push k').Holds a k := by
  obtain ⟨n, hn, hk⟩ := h
  refine ⟨n + 1, ?_, by simpa using hk⟩
  rw [level_push]
  omega

theorem Holds.of_push (h : (φ.push k').Holds a k) (ha : a ≤ φ.level) : φ.Holds a k := by
  obtain ⟨n, hn, hk⟩ := h
  rw [level_push] at hn
  obtain ⟨m, rfl⟩ : ∃ m, n = m + 1 := ⟨n - 1, by omega⟩
  exact ⟨m, by omega, by simpa using hk⟩

theorem Holds.piled (h : φ.Holds a k) : ∀ ks, (φ.piled ks).Holds a k
  | [] => h
  | _ :: ks => (h.piled ks).push

theorem Holds.of_piled (ha : a ≤ φ.level) : ∀ ks, (φ.piled ks).Holds a k → φ.Holds a k
  | [], h => h
  | k' :: ks, h => by
    have hpush : ((φ.piled ks).push k').Holds a k := h
    exact of_piled ha ks (hpush.of_push (by rw [level_piled]; omega))

theorem holds_pushes (φ : Frame) (k : Kind) {n i : Nat} (hi : i < n) :
    (φ.pushes n k).Holds (φ.level + 1 + i) k := by
  refine ⟨n - 1 - i, ?_, ?_⟩
  · rw [level_pushes]
    omega
  · rw [words_pushes, List.getElem?_append_left (by rw [List.length_replicate]; omega),
      List.getElem?_replicate, if_pos (by omega)]

end

end Frame

/-- The variable is a reference on the stack, if it is local. -/
def Held (G scope : Slots) (φ : Frame) (x : String) : Prop :=
  ∀ slot, (scope.lookup x).or (G.lookup x) = some slot → slot.storage = .local_ →
    φ.Holds slot.address .ref

/-- The variable does not lie above the level, if it is local. -/
def Within (G scope : Slots) (level : Int) (x : String) : Prop :=
  ∀ slot, (scope.lookup x).or (G.lookup x) = some slot → slot.storage = .local_ →
    slot.address ≤ level

section
variable {G scope : Slots} {φ : Frame} {x : String} {k : Kind}

variable {l : Cell} {bs : List (Binding Expr)} {order : CaptureOrder} {fn : String} {p : Pos}
  {params names : List String} {a : Expr} {rest : Bool}

theorem Held.within (h : Held G scope φ x) : Within G scope φ.level x := by
  intro slot hslot hs
  obtain ⟨n, hn, -⟩ := h slot hslot hs
  omega

theorem Within.mono {a b : Int} (h : Within G scope a x) (hab : a ≤ b) : Within G scope b x :=
  fun slot hslot hs => (h slot hslot hs).trans hab

theorem Held.push (h : Held G scope φ x) : Held G scope (φ.push k) x :=
  fun slot hslot hs => (h slot hslot hs).push

theorem Held.of_push (h : Held G scope (φ.push k) x) (hx : Within G scope φ.level x) :
    Held G scope φ x :=
  fun slot hslot hs => (h slot hslot hs).of_push (hx slot hslot hs)

theorem Held.piled (h : Held G scope φ x) (ks : List Kind) : Held G scope (φ.piled ks) x :=
  fun slot hslot hs => (h slot hslot hs).piled ks

theorem Held.of_piled {ks : List Kind} (h : Held G scope (φ.piled ks) x)
    (hx : Within G scope φ.level x) : Held G scope φ x :=
  fun slot hslot hs => .of_piled (hx slot hslot hs) ks (h slot hslot hs)

theorem Held.pushes (h : Held G scope φ x) (n : Nat) : Held G scope (φ.pushes n k) x :=
  φ.pushes_eq_piled n k ▸ h.piled _

/-- A call that begins leaves the variables where they are. -/
theorem Held.mark (h : Held G scope φ x) : Held G scope (φ.mark l) x :=
  h.piled [.kept, .kept, .kept]

theorem Held.of_mark (h : Held G scope (φ.mark l) x) (hx : Within G scope φ.level x) :
    Held G scope φ x := by
  have hpiled : Held G scope (φ.piled [.kept, .kept, .kept]) x := h
  exact hpiled.of_piled hx

theorem lookup_letSlots {kp : Int} {slot : Slot} :
    ((letSlots kp bs scope).lookup x).or (G.lookup x) = some slot ↔
      (∃ j < bs.length, lastIndex? x (boundNames bs) = some j ∧
        slot = ⟨.local_, kp + 1 + j, none⟩) ∨
      x ∉ boundNames bs ∧ (scope.lookup x).or (G.lookup x) = some slot := by
  rw [letSlots, List.lookup_append, lookup_slotsFrom, ← lastIndex?_eq_none]
  cases hl : lastIndex? x (boundNames bs) with
  | some j =>
    have hj : j < bs.length := by
      simpa using (List.getElem?_eq_some_iff.1 (getElem?_of_lastIndex? hl)).1
    constructor
    · intro hslot
      exact .inl ⟨j, hj, rfl, by simpa using (Option.some.inj hslot).symm⟩
    · rintro (⟨_, -, hj', rfl⟩ | ⟨hx, -⟩)
      · cases hj'
        simp
      · cases hx
  | none => simp

/-- Inside a `local` its own places are references, too. -/
theorem Held.letIn (h : x ∉ boundNames bs → Held G scope φ x) :
    Held G (letSlots φ.level bs scope) (φ.pushes bs.length .ref) x := by
  intro slot hslot hs
  rcases lookup_letSlots.1 hslot with ⟨j, hj, -, rfl⟩ | ⟨hx, hslot⟩
  · exact φ.holds_pushes .ref hj
  · rw [Frame.pushes_eq_piled]
    exact (h hx slot hslot hs).piled _

theorem Held.of_letIn (h : Held G (letSlots φ.level bs scope) (φ.pushes bs.length .ref) x)
    (hx : x ∉ boundNames bs) (hwithin : Within G scope φ.level x) : Held G scope φ x := by
  rw [Frame.pushes_eq_piled] at h
  intro slot hslot hs
  exact .of_piled (hwithin slot hslot hs) _ (h slot (lookup_letSlots.2 (.inr ⟨hx, hslot⟩)) hs)

theorem Within.letIn {kp : Int} (h : x ∉ boundNames bs → Within G scope kp x) :
    Within G (letSlots kp bs scope) (kp + bs.length) x := by
  intro slot hslot hs
  rcases lookup_letSlots.1 hslot with ⟨j, hj, -, rfl⟩ | ⟨hx, hslot⟩
  · dsimp only
    omega
  · have := h hx slot hslot hs
    omega

theorem slot_of_body (ho : order.Lists) {slot : Slot}
    (hnames : freeVars (.lambda p params a rest) = .ok names)
    (hexact : FreeVarsExact (.lambda p params a rest)) (hx : Free x a) :
    ((functionSlots (order fn names) params ++ scope).lookup x).or (G.lookup x) = some slot ∧
      slot.storage = .local_ ↔
    ∃ j, lastIndex? x params = some j ∧ slot = ⟨.local_, -j, none⟩ := by
  rw [List.lookup_append, functionSlots, lookup_slotsFrom, lookup_slotsFrom]
  cases hl : lastIndex? x params with
  | some j =>
    constructor
    · rintro ⟨hslot, -⟩
      refine ⟨j, rfl, ?_⟩
      simpa [eq_comm] using hslot
    · rintro ⟨_, hj, rfl⟩
      cases hj
      simp
  | none =>
    obtain ⟨names', hnames', hmem⟩ := hexact
    cases hnames.symm.trans hnames'
    have hx : x ∈ order fn names :=
      (ho fn names x).2 ((hmem x).2 (.lambda (lastIndex?_eq_none.1 hl) hx))
    obtain ⟨j, hj⟩ : ∃ j, lastIndex? x (order fn names) = some j := by
      cases hc : lastIndex? x (order fn names) with
      | none => exact absurd hx (lastIndex?_eq_none.1 hc)
      | some j => exact ⟨j, rfl⟩
    rw [hj]
    constructor
    · rintro ⟨hslot, hs⟩
      cases hslot
      cases hs
    · rintro ⟨_, h, -⟩
      cases h

/-- The words on the stack at the start of a function are references where it reads them. -/
def Supplies (params : List String) (a : Expr) (under : List Kind) : Prop :=
  ∀ x j, Free x a → lastIndex? x params = some j → under[j]? = some .ref

theorem held_body_iff (ho : order.Lists) {u : List Kind}
    (hnames : freeVars (.lambda p params a rest) = .ok names)
    (hexact : FreeVarsExact (.lambda p params a rest)) :
    (∀ x, Free x a → Held G (functionSlots (order fn names) params ++ scope) (.atLabel l u) x) ↔
      Supplies params a u := by
  have hholds : ∀ j : Nat, (Frame.atLabel l u).Holds (-j) .ref ↔ u[j]? = some .ref := by
    intro j
    constructor
    · rintro ⟨n, hn, hk⟩
      rw [Frame.level_atLabel] at hn
      obtain rfl : n = j := by omega
      exact hk
    · exact fun h => ⟨j, by rw [Frame.level_atLabel]; omega, h⟩
  constructor
  · intro h x j hx hj
    obtain ⟨hslot, hs⟩ := (slot_of_body ho hnames hexact hx).2 ⟨j, hj, rfl⟩
    exact (hholds j).1 (h x hx _ hslot hs)
  · intro h x hx slot hslot hs
    obtain ⟨j, hj, rfl⟩ := (slot_of_body ho hnames hexact hx).1 ⟨hslot, hs⟩
    exact (hholds j).2 (h x j hx hj)

theorem within_body (ho : order.Lists) (hnames : freeVars (.lambda p params a rest) = .ok names)
    (hexact : FreeVarsExact (.lambda p params a rest)) (hx : Free x a) :
    Within G (functionSlots (order fn names) params ++ scope) 0 x := by
  intro slot hslot hs
  obtain ⟨j, -, rfl⟩ := (slot_of_body ho hnames hexact hx).1 ⟨hslot, hs⟩
  dsimp only
  omega

theorem supplies_all (params : List String) (a : Expr) :
    Supplies params a (List.replicate params.length .ref) := by
  intro x j _ hj
  have hlt : j < params.length := (List.getElem?_eq_some_iff.1 (getElem?_of_lastIndex? hj)).1
  simp [hlt]

end

/-! ## What is pushed -/

namespace Piece

@[simp] def scope : Piece → Slots
  | code _ scope _ _ => scope
  | arguments scope _ _ => scope
  | bindings scope _ _ _ => scope
  | reads scope _ _ => scope

def Uses : Piece → String → Prop
  | code _ _ _ (some e), x => Free x e
  | code _ _ _ none, _ => False
  | arguments _ _ es, x => ∃ a ∈ es, Free x a
  | bindings _ _ _ bs, x => ∃ b ∈ bs, Free x b.value
  | reads _ _ xs, x => x ∈ xs

def AllCapture : Piece → Prop
  | code _ _ _ e => ∀ a ∈ e, Captures a
  | arguments _ _ es => ∀ a ∈ es, Captures a
  | bindings _ _ _ bs => ∀ b ∈ bs, Captures b.value
  | reads .. => True

theorem AllCapture.part {want want' : Want} {scope scope' : Slots} {φ φ' : Frame} {e : Expr}
    {o : Option Expr} (h : (code want scope φ (some e)).AllCapture) (ho : ∀ a ∈ o, a ∈ e.parts) :
    (code want' scope' φ' o).AllCapture :=
  fun a ha => (h e rfl).part (ho a ha)

def AllWhole : Piece → Prop
  | code want _ _ e => Whole want e
  | arguments _ _ es => ∀ a ∈ es, Whole .reference (some a)
  | bindings _ _ _ bs => ∀ b ∈ bs, Whole .reference (some b.value)
  | reads .. => True

/-- The expressions of a piece are whole, and its local variables are references on the stack. -/
structure Sound (G : Slots) (φ : Frame) (piece : Piece) : Prop where
  whole : piece.AllWhole
  held : ∀ x, piece.Uses x → Held G piece.scope φ x

end Piece

/-- The frame over the words that are on the stack at the start of its function. -/
def Frame.seen (w : Option Cell → List Kind) (φ : Frame) : Frame := φ.on (w φ.home)

theorem Frame.seen_push (w : Option Cell → List Kind) (φ : Frame) (k : Kind) :
    (φ.push k).seen w = (φ.seen w).push k := rfl

theorem Frame.seen_mark (w : Option Cell → List Kind) (φ : Frame) (l : Cell) :
    (φ.mark l).seen w = (φ.seen w).mark l := rfl

theorem Frame.seen_pushes (w : Option Cell → List Kind) (φ : Frame) (n : Nat) (k : Kind) :
    (φ.pushes n k).seen w = (φ.seen w).pushes n k := by
  rw [seen, seen, home_pushes, pushes_on]

/-- The instruction finds what it needs, and leaves what is expected. -/
def Spot.Strict (w : Option Cell → List Kind) (σ : Spot) : Prop :=
  ∃ φ, σ.instr.after? (σ.frame.seen w) = some (φ.seen w) ∧ σ.Leads φ

section
variable {w : Option Cell → List Kind}

variable {φ : Frame}

theorem Spot.Leads.eq {σ : Spot} {ψ : Frame} (hφ : σ.Leads φ) (hψ : σ.Leads ψ) : φ = ψ := by
  rw [Spot.Leads] at hφ hψ
  split at hφ
  · rw [if_pos ‹_›] at hψ
    rw [hφ, hψ]
  · rw [if_neg ‹_›] at hψ
    exact Option.some.inj (hφ.symm.trans hψ)

theorem Spot.Strict.follows {σ : Spot} (h : σ.Strict w) : Follows kinds (Frame.seen w) σ where
  after φ hφ := by
    obtain ⟨ψ, hψ, hleads⟩ := h
    rw [hφ.eq hleads]
    exact hψ
  back := rfl

theorem Spot.Strict.of_after? {ψ : Frame} {note : Note} {i : Instr} (hi : i.pushes = false)
    (h : i.after? φ = some ψ) (hw : i.after? (φ.seen w) = some (ψ.seen w)) :
    Spot.Strict w ⟨φ, note, i⟩ :=
  ⟨ψ, hw, by rw [Spot.Leads, if_neg (by simp [hi])]; exact h⟩

/-- A function that starts with the instruction is supplied with what it reads. -/
def Spot.Supplied (w : Option Cell → List Kind) (σ : Spot) : Prop :=
  ∀ params a, σ.note = .function params a → Supplies params a (w σ.frame.home)

theorem strict_loadc {note : Note} {c : Cell} (h : note.kind = .word) :
    Spot.Strict w ⟨φ, note, .loadc c⟩ :=
  ⟨φ.push .word, rfl, by simp [Spot.Leads, Instr.pushes, h]⟩

theorem strict_access {scope : Slots} {x : String} {slot : Slot}
    (h : slot.storage = .local_ → (φ.seen w).Holds slot.address .ref) :
    Spot.Strict w ⟨φ, .variable_ scope x, access φ slot⟩ := by
  refine ⟨φ.push .ref, ?_, leads_access ..⟩
  by_cases hs : slot.storage = .local_
  · obtain ⟨n, hn, hk⟩ := h hs
    have hn' : φ.level - slot.address = n := hn
    rw [access, if_pos hs, hn', Instr.after?, natural?_cast, Option.bind_some, hk]
    rfl
  · rw [access, if_neg hs]
    rfl

theorem strict_boxing (φ : Frame) (want : Want) : ∀ σ ∈ boxing φ want, σ.Strict w := by
  cases want
  · simp [boxing]
  · exact List.forall_mem_singleton.2 (.of_after? rfl (Instr.after?_mkbasic φ) rfl)

theorem strict_unboxing (φ : Frame) (want : Want) : ∀ σ ∈ unboxing φ want, σ.Strict w := by
  cases want
  · exact List.forall_mem_singleton.2 (.of_after? rfl (Instr.after?_getbasic φ) rfl)
  · simp [unboxing]

/-- **The code of a sound piece pushes what is expected**, if its functions are supplied with what
    they read. -/
theorem Emits.strict {order : CaptureOrder} {G : Slots} {piece : Piece} {S : List Spot}
    (h : Emits order G piece S) (ho : order.Lists) : piece.AllCapture →
    piece.Sound G (piece.entry.seen w) → (∀ σ ∈ S, σ.Supplied w) → ∀ σ ∈ S, σ.Strict w := by
  induction h with
  | missing =>
    rintro - ⟨hw, -⟩ -
    cases hw
    exact List.forall_mem_singleton.2 (strict_loadc rfl)
  | number => exact fun _ _ _ => List.forall_mem_cons.2 ⟨strict_loadc rfl, strict_boxing _ _⟩
  | unary _ ih =>
    rintro hc ⟨hw, hheld⟩ hs
    cases hw with
    | unary hw =>
      simp only [List.forall_mem_append, List.forall_mem_cons] at hs ⊢
      exact ⟨ih (hc.part (by simp [Expr.parts])) ⟨hw, fun x hx => hheld x (.unary hx)⟩ hs.1,
        .of_after? rfl (Instr.after?_unary ..) rfl, strict_boxing _ _⟩
  | binary _ _ iha ihb =>
    rintro hc ⟨hw, hheld⟩ hs
    cases hw with
    | binary hwa hwb =>
      simp only [List.forall_mem_append, List.forall_mem_cons] at hs ⊢
      exact ⟨⟨iha (hc.part (by simp [Expr.parts])) ⟨hwa, fun x hx => hheld x (.left hx)⟩ hs.1.1,
        ihb (hc.part (by simp [Expr.parts])) ⟨hwb, fun x hx => (hheld x (.right hx)).push⟩ hs.1.2⟩,
        .of_after? rfl (Instr.after?_binary ..) rfl, strict_boxing _ _⟩
  | var _ ih =>
    rintro - ⟨-, hheld⟩ hs
    rw [List.forall_mem_append] at hs ⊢
    refine ⟨ih trivial ⟨trivial, fun x hx => ?_⟩ hs.1, strict_unboxing _ _⟩
    cases List.mem_singleton.1 hx
    exact hheld _ .var
  | @ifThen i th el en _ _ _ _ _ _ b _ _ _ _ _ _ ihe iha ihb =>
    rintro hc ⟨hw, hheld⟩ hs
    cases hw with
    | ifThen hwe hwa hwb =>
      simp only [List.forall_mem_append, List.forall_mem_cons] at hs ⊢
      obtain ⟨⟨⟨⟨-, hse⟩, -, -, hsa⟩, -, -, hsb⟩, -⟩ := hs
      have he := ihe (hc.part (by simp [Expr.parts]))
        ⟨hwe, fun x hx => hheld x (.condition hx)⟩ hse
      have ha := iha (hc.part (by simp [Expr.parts])) ⟨hwa, fun x hx => hheld x (.yes hx)⟩ hsa
      have hb := ihb (hc.part (by simp +contextual [Expr.parts])) ⟨hwb, fun x hx => by
        cases b with
        | none => cases hx
        | some b => exact hheld x (.no hx)⟩ hsb
      exact ⟨⟨⟨⟨.of_after? rfl rfl rfl, he⟩, .of_after? rfl (Instr.after?_jumpz ..) rfl,
        .of_after? rfl rfl rfl, ha⟩, .of_after? rfl rfl rfl, .of_after? rfl rfl rfl, hb⟩,
        .of_after? rfl rfl rfl, by simp⟩
  | @letIn _ _ φ _ bs _ _ _ _ _ ihi iha =>
    rintro hc ⟨hw, hheld⟩ hs
    cases hw with
    | letIn hwbs hwa =>
      simp only [List.forall_mem_append, List.forall_mem_cons] at hs ⊢
      obtain ⟨⟨⟨-, hsi⟩, hsa⟩, -⟩ := hs
      have hi := ihi (fun b hb => (hc _ rfl).part (List.mem_append_left _ (List.mem_map_of_mem hb)))
        ⟨hwbs, fun x hx => by
          obtain ⟨b, hb, hx⟩ := hx
          rw [Piece.entry, Frame.seen_pushes]
          exact .letIn fun hbound => hheld x (.binding hbound hb hx)⟩ hsi
      have ha := iha (hc.part (by simp [Expr.parts])) ⟨hwa, fun x hx => by
        rw [Piece.entry, Frame.seen_pushes]
        exact .letIn fun hbound => hheld x (.body hbound hx)⟩ hsa
      refine ⟨⟨⟨.of_after? rfl rfl ?_, hi⟩, ha⟩, .of_after? rfl (Instr.after?_slide ..) ?_, by simp⟩
      · rw [Frame.seen_pushes]
        rfl
      · rw [Frame.seen_push, Frame.seen_pushes]
        exact Instr.after?_slide ..
  | @call ret _ _ φ _ _ args _ _ _ _ ihargs ihe =>
    rintro hc ⟨hw, hheld⟩ hs
    cases hw with
    | call hwe hwargs =>
      simp only [List.forall_mem_append, List.forall_mem_cons] at hs ⊢
      obtain ⟨⟨⟨-, hsargs⟩, hse⟩, -⟩ := hs
      have hargs := ihargs (fun a ha => (hc _ rfl).part (by simp [Expr.parts, ha]))
        ⟨hwargs, fun x hx => by
          obtain ⟨a, ha, hx⟩ := hx
          exact (hheld x (.argument ha hx)).mark⟩ hsargs
      have he := ihe (hc.part (by simp [Expr.parts])) ⟨hwe, fun x hx => by
        rw [Piece.entry, Frame.seen_pushes]
        exact (hheld x (.callee hx)).mark.pushes _⟩ hse
      refine ⟨⟨⟨.of_after? rfl rfl rfl, hargs⟩, he⟩, .of_after? rfl (Instr.after?_apply ..) ?_,
        .of_after? rfl rfl rfl, strict_unboxing _ _⟩
      rw [Frame.seen_push, Frame.seen_pushes, Frame.seen_mark]
      exact Instr.after?_apply ..
  | @lambda fn af _ φ _ _ _ _ names _ _ hnames _ _ ihx iha =>
    rintro hc ⟨hw, hheld⟩ hs
    cases hw with
    | lambda hwa =>
      simp only [List.forall_mem_append, List.forall_mem_cons] at hs ⊢
      obtain ⟨⟨⟨hsx, -, -, -, hsupplied, -⟩, hsa⟩, -⟩ := hs
      have hexact := hc _ rfl _ _ _ _ .self
      have hx := ihx trivial ⟨trivial, fun x hx => by
        obtain ⟨names', hnames', hmem⟩ := hexact
        cases hnames.symm.trans hnames'
        exact hheld x ((hmem x).1 ((ho fn names x).1 hx))⟩ hsx
      have ha := iha (hc.part (by simp [Expr.parts]))
        ⟨hwa, (held_body_iff ho hnames hexact).2 (hsupplied _ _ rfl)⟩ hsa
      refine ⟨⟨⟨hx, .of_after? rfl (Instr.after?_mkvec ..) ?_,
        .of_after? rfl (Instr.after?_mkfunval ..) rfl, .of_after? rfl rfl rfl,
        .of_after? rfl rfl rfl, by simp⟩, ha⟩, .of_after? rfl (Instr.after?_popenv ..) rfl,
        .of_after? rfl rfl rfl, by simp⟩
      rw [Frame.seen_pushes]
      exact Instr.after?_mkvec ..
  | noArgument | noBinding | noVariable => simp
  | argument _ _ ihs iha =>
    rintro hc ⟨hw, hheld⟩ hs
    rw [List.forall_mem_append] at hs ⊢
    refine ⟨ihs (fun a ha => hc a (.tail _ ha))
      ⟨fun a ha => hw a (.tail _ ha), fun x hx => ?_⟩ hs.1,
      iha (fun a ha => Option.some.inj ha ▸ hc _ (.head _)) ⟨hw _ (.head _), fun x hx => ?_⟩ hs.2⟩
    · obtain ⟨a, ha, hx⟩ := hx
      exact hheld x ⟨a, .tail _ ha, hx⟩
    · rw [Piece.entry, Frame.seen_pushes]
      exact (hheld x ⟨_, .head _, hx⟩).pushes _
  | @binding _ φ n _ bs _ _ hn _ _ iha ihs =>
    rintro hc ⟨hw, hheld⟩ hs
    simp only [List.forall_mem_append, List.forall_mem_cons] at hs ⊢
    have ha := iha (fun a ha => Option.some.inj ha ▸ hc _ (.head _))
      ⟨hw _ (.head _), fun x hx => hheld x ⟨_, .head _, hx⟩⟩ hs.1
    have hbs := ihs (fun b hb => hc b (.tail _ hb)) ⟨fun b hb => hw b (.tail _ hb), fun x hx => by
      obtain ⟨b, hb, hx⟩ := hx
      exact hheld x ⟨b, .tail _ hb, hx⟩⟩ hs.2.2
    refine ⟨ha, .of_after? rfl (Instr.after?_patch _ hn) ?_, hbs⟩
    rw [Frame.seen_push, Frame.seen_pushes]
    exact Instr.after?_patch _ hn
  | variable_ hx _ ih =>
    rintro - ⟨-, hheld⟩ hs
    rw [List.forall_mem_cons] at hs ⊢
    exact ⟨strict_access fun hlocal => hheld _ (.head _) _ hx hlocal,
      ih trivial ⟨trivial, fun x hx => (hheld x (.tail _ hx)).push⟩ hs.2⟩

end

end ExprLang.MaMa
