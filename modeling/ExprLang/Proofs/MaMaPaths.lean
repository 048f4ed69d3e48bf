/-
  Paths through MaMa code.

  * `Flow` is a way to look at the stack that is followed along paths, and `Visits` are the places
    that paths come by, with what is seen there.  A call goes on at its return label, and also into
    the functions that it may call; besides, the code of a function may be entered from elsewhere;
  * `Frame` looks at the kinds of the words on the stack, and `Instr.after?` says which of them an
    instruction needs and which it leaves;
  * a `Spot` is an instruction with the frame that its generator expects before it.  Spots that are
    `Linked`, `Routed` and `Entered` are what paths come by: `visits_of_linked`, and `of_visits` for
    functions that are entered in several ways.
-/
import ExprLang.Proofs.MaMaCode

namespace ExprLang.MaMa

/-! ## Paths -/

def Instr.falls : Instr → Bool
  | .jump _ | .apply | .popenv => false
  | _ => true

/-- The label that the instruction may go to, where `back` is the one that a call returns to. -/
def Instr.target? (back : Option Cell) : Instr → Option Cell
  | .jump l | .jumpz l => some l
  | .apply => back
  | _ => none

/-- A way to look at the stack. -/
structure Flow (α : Type) where
  /-- What is seen after an instruction. -/
  after? : Instr → α → Option α
  /-- The label that the innermost call returns to. -/
  back? : α → Option Cell
  /-- What is seen at the start of a function that is called. -/
  entered? : Cell → α → Option α

/-- Some path through `P` comes by the place, with what is seen there.  The functions are entered
    from elsewhere as `enters` says, and by those calls in `P` that `calls` has with them. -/
inductive Visits {α : Type} (F : Flow α) (P : List Instr) (enters : Cell → α → Prop)
    (calls : Nat → Cell → Prop) (start : α) : Nat → α → Prop where
  | start : Visits F P enters calls start 0 start
  | enter {q l a} (hq : P[q]? = some (.label l)) (h : enters l a) :
      Visits F P enters calls start q a
  | fall {n i a b} (h : Visits F P enters calls start n a) (hi : P[n]? = some i)
      (hf : i.falls = true) (hb : F.after? i a = some b) : Visits F P enters calls start (n + 1) b
  | go {n q i l a b} (h : Visits F P enters calls start n a) (hi : P[n]? = some i)
      (hl : i.target? (F.back? a) = some l) (hb : F.after? i a = some b)
      (hq : P[q]? = some (.label l)) : Visits F P enters calls start q b
  | call {n q l a b} (h : Visits F P enters calls start n a) (hi : P[n]? = some .apply)
      (hc : calls n l) (hl : .mkfunval l ∈ P) (hb : F.entered? l a = some b)
      (hq : P[q]? = some (.label l)) : Visits F P enters calls start q b

/-! ## Frames -/

/-- What a word on the stack is. -/
inductive Kind where
  | word | ref
  /-- One of the words that a call keeps. -/
  | kept
deriving DecidableEq, Repr

/-- The stack, as a function sees it. -/
structure Frame where
  /-- The function that the code belongs to, if it belongs to one. -/
  home : Option Cell
  /-- The words on the stack at its start, the top word first. -/
  under : List Kind
  /-- The level at its start. -/
  base : Int
  /-- The words above, the top word first. -/
  stack : List Kind
  /-- The calls that have begun: where they return to, and the words above before them. -/
  calls : List (Cell × List Kind)

namespace Frame

/-- The height of the stack since the start of the function. -/
def level (φ : Frame) : Int := φ.base + φ.stack.length

def words (φ : Frame) : List Kind := φ.stack ++ φ.under

/-- The same code over other words. -/
def on (φ : Frame) (under : List Kind) : Frame := { φ with under := under }

/-- One word more. -/
def push (φ : Frame) (k : Kind) : Frame := { φ with stack := k :: φ.stack }

def pushes (φ : Frame) : Nat → Kind → Frame
  | 0, _ => φ
  | n + 1, k => (φ.pushes n k).push k

/-- A call begins. -/
def mark (φ : Frame) (l : Cell) : Frame :=
  { ((φ.push .kept).push .kept).push .kept with calls := (l, φ.stack) :: φ.calls }

/-- Without the top word, which has to be of the given kind. -/
def take? (φ : Frame) (k : Kind) : Option Frame :=
  match φ.stack with
  | k' :: s => if k' = k then some { φ with stack := s } else none
  | [] => none

/-- Without some words of one kind. -/
def takes? (φ : Frame) : Nat → Kind → Option Frame
  | 0, _ => some φ
  | n + 1, k => (φ.take? k).bind (·.takes? n k)

/-- Without some words below the top one. -/
def slide? (φ : Frame) (n : Nat) : Option Frame :=
  match φ.stack with
  | k :: s => if n ≤ s.length then some { φ with stack := k :: s.drop n } else none
  | [] => none

/-- After the innermost call, whose arguments are references. -/
def return? (φ : Frame) : Option Frame :=
  match φ.calls with
  | (_, s) :: calls =>
    if φ.stack = List.replicate (φ.stack.length - s.length - 3) .ref ++
        .kept :: .kept :: .kept :: s then some { φ with stack := .ref :: s, calls := calls }
    else none
  | [] => none

/-- The label that the innermost call returns to. -/
def back? (φ : Frame) : Option Cell := φ.calls.head?.map Prod.fst

def start (kp : Int) (under : List Kind) : Frame := ⟨none, under, kp, [], []⟩

/-- The frame at the start of a function. -/
def atLabel (l : Cell) (under : List Kind) : Frame := ⟨some l, under, 0, [], []⟩

def body (fn : String) (params : List String) : Frame :=
  atLabel (.text fn) (List.replicate params.length .ref)

/-- At the start of the function that is called: it finds the words of the caller below its own. -/
def entered? (l : Cell) (φ : Frame) : Option Frame :=
  (φ.take? .ref).map fun ψ => atLabel l ψ.words

@[simp] theorem take?_push (φ : Frame) (k : Kind) : (φ.push k).take? k = some φ := by
  simp [push, take?]

@[simp] theorem takes?_pushes (φ : Frame) (n : Nat) (k : Kind) :
    (φ.pushes n k).takes? n k = some φ := by
  induction n with
  | zero => rfl
  | succ n ih => simp [pushes, takes?, ih]

theorem pushes_push (φ : Frame) (n : Nat) (k : Kind) :
    (φ.push k).pushes n k = φ.pushes (n + 1) k := by
  induction n with
  | zero => rfl
  | succ n ih => rw [pushes, ih]; rfl

@[simp] theorem stack_push (φ : Frame) (k : Kind) : (φ.push k).stack = k :: φ.stack := rfl

@[simp] theorem calls_push (φ : Frame) (k : Kind) : (φ.push k).calls = φ.calls := rfl

@[simp] theorem base_push (φ : Frame) (k : Kind) : (φ.push k).base = φ.base := rfl

@[simp] theorem home_push (φ : Frame) (k : Kind) : (φ.push k).home = φ.home := rfl

@[simp] theorem words_push (φ : Frame) (k : Kind) : (φ.push k).words = k :: φ.words := rfl

theorem pushes_eq (φ : Frame) (n : Nat) (k : Kind) :
    φ.pushes n k = { φ with stack := List.replicate n k ++ φ.stack } := by
  induction n with
  | zero => rfl
  | succ n ih => rw [pushes, ih]; rfl

@[simp] theorem stack_pushes (φ : Frame) (n : Nat) (k : Kind) :
    (φ.pushes n k).stack = List.replicate n k ++ φ.stack := by rw [pushes_eq]

@[simp] theorem calls_pushes (φ : Frame) (n : Nat) (k : Kind) :
    (φ.pushes n k).calls = φ.calls := by rw [pushes_eq]

@[simp] theorem base_pushes (φ : Frame) (n : Nat) (k : Kind) : (φ.pushes n k).base = φ.base := by
  rw [pushes_eq]

@[simp] theorem home_pushes (φ : Frame) (n : Nat) (k : Kind) : (φ.pushes n k).home = φ.home := by
  rw [pushes_eq]

@[simp] theorem words_pushes (φ : Frame) (n : Nat) (k : Kind) :
    (φ.pushes n k).words = List.replicate n k ++ φ.words := by
  rw [pushes_eq, words, words, List.append_assoc]

@[simp] theorem home_mark (φ : Frame) (l : Cell) : (φ.mark l).home = φ.home := rfl

@[simp] theorem slide?_push (φ : Frame) (n : Nat) (k k' : Kind) :
    ((φ.pushes n k).push k').slide? n = some (φ.push k') := by
  simp [pushes_eq, slide?, push]

@[simp] theorem return?_mark (φ : Frame) (l : Cell) (n : Nat) :
    ((φ.mark l).pushes n .ref).return? = some (φ.push .ref) := by
  have hlength : (List.replicate n Kind.ref ++ .kept :: .kept :: .kept :: φ.stack).length -
      φ.stack.length - 3 = n := by
    simp only [List.length_append, List.length_replicate, List.length_cons]
    omega
  rw [pushes_eq]
  simp only [return?, mark, push, hlength, if_true]

theorem eq_push_of_take? {φ ψ : Frame} {k : Kind} (h : φ.take? k = some ψ) : φ = ψ.push k := by
  rw [take?] at h
  split at h
  · rename_i k' s hs
    split at h
    · rename_i hk
      cases h
      cases φ
      simp_all [push]
    · cases h
  · cases h

theorem eq_pushes_of_takes? {ψ : Frame} {k : Kind} : ∀ {n : Nat} {φ : Frame},
    φ.takes? n k = some ψ → φ = ψ.pushes n k
  | 0, _, h => Option.some.inj h
  | n + 1, φ, h => by
    obtain ⟨χ, hχ, h⟩ := Option.bind_eq_some_iff.1 h
    rw [eq_push_of_take? hχ, eq_pushes_of_takes? h, pushes]

theorem of_slide? {φ ψ : Frame} {n : Nat} (h : φ.slide? n = some ψ) :
    ψ.home = φ.home ∧ ψ.base = φ.base ∧ ψ.calls = φ.calls ∧ ψ.stack.length + n = φ.stack.length ∧
      n < φ.stack.length := by
  rw [slide?] at h
  split at h
  · rename_i k s hs
    split at h
    · cases h
      simp only [hs, List.length_cons, List.length_drop, true_and]
      omega
    · cases h
  · cases h

theorem of_return? {φ ψ : Frame} (h : φ.return? = some ψ) :
    ∃ l s calls, φ.calls = (l, s) :: calls ∧ ψ = { φ with stack := .ref :: s, calls := calls } ∧
      φ.stack = List.replicate (φ.stack.length - s.length - 3) .ref ++
        .kept :: .kept :: .kept :: s := by
  rw [return?] at h
  split at h
  · rename_i l s calls hcalls
    split at h
    · rename_i hstack
      cases h
      exact ⟨l, s, calls, hcalls, rfl, hstack⟩
    · cases h
  · cases h

@[simp] theorem level_push (φ : Frame) (k : Kind) : (φ.push k).level = φ.level + 1 := by
  simp only [level, base_push, stack_push, List.length_cons]
  omega

@[simp] theorem level_pushes (φ : Frame) (n : Nat) (k : Kind) :
    (φ.pushes n k).level = φ.level + n := by
  simp only [level, base_pushes, stack_pushes, List.length_append, List.length_replicate]
  omega

@[simp] theorem level_mark (φ : Frame) (l : Cell) : (φ.mark l).level = φ.level + 3 := by
  simp only [level, mark, base_push, stack_push, List.length_cons]
  omega

@[simp] theorem level_start (kp : Int) (under : List Kind) : (start kp under).level = kp :=
  Int.add_zero kp

@[simp] theorem level_atLabel (l : Cell) (under : List Kind) : (atLabel l under).level = 0 := rfl

@[simp] theorem level_body (fn : String) (params : List String) : (body fn params).level = 0 := rfl

@[simp] theorem level_on (φ : Frame) (u : List Kind) : (φ.on u).level = φ.level := rfl

@[simp] theorem home_body (fn : String) (params : List String) :
    (body fn params).home = some (.text fn) := rfl

theorem pushes_on (φ : Frame) (n : Nat) (k : Kind) (u : List Kind) :
    (φ.on u).pushes n k = (φ.pushes n k).on u := by
  rw [pushes_eq, pushes_eq]
  rfl

@[simp] theorem pushes_zero (φ : Frame) (k : Kind) : φ.pushes 0 k = φ := rfl

@[simp] theorem pushes_succ (φ : Frame) (n : Nat) (k : Kind) :
    φ.pushes (n + 1) k = (φ.pushes n k).push k := rfl

end Frame

/-- The operand is a number of words. -/
def natural? : Cell → Option Nat
  | .int n => n.toNat?
  | _ => none

@[simp] theorem natural?_cast (n : Nat) : natural? (.int n) = some n := rfl

theorem natural?_eq {c : Cell} {n : Nat} (h : natural? c = some n) : c = .int n := by
  cases c with
  | int k => rw [Int.mem_toNat?.1 h]
  | _ => cases h

def Instr.after? (φ : Frame) : Instr → Option Frame
  | .loadc _ => some (φ.push .word)
  | .unary _ => (φ.take? .word).map (·.push .word)
  | .binary _ => (φ.takes? 2 .word).map (·.push .word)
  | .label _ | .jump _ => some φ
  | .jumpz _ => φ.take? .word
  | .mkbasic => (φ.take? .word).map (·.push .ref)
  | .getbasic => (φ.take? .ref).map (·.push .word)
  | .slide n => (natural? n).bind φ.slide?
  | .pushloc n => (natural? n).bind fun n => φ.words[n]?.map φ.push
  | .pushglob _ => some (φ.push .ref)
  | .mkvec n => (natural? n).bind fun n => (φ.takes? n .ref).map (·.push .ref)
  | .mkfunval _ | .popenv => (φ.take? .ref).map (·.push .ref)
  | .mark l => some (φ.mark l)
  | .apply => (φ.take? .ref).bind (·.return?)
  | .alloc n => (natural? n).map (φ.pushes · .ref)
  | .patch n => (natural? n).bind fun n =>
    if 0 < n ∧ φ.words[n]? = some .ref then φ.take? .ref else none
  | .pop | .dup | .swap => none

namespace Instr

variable (φ : Frame)

@[simp] theorem after?_unary (o : CMa.UnaryOp) :
    (unary o).after? (φ.push .word) = some (φ.push .word) := rfl

@[simp] theorem after?_binary (o : CMa.BinaryOp) :
    (binary o).after? ((φ.push .word).push .word) = some (φ.push .word) := rfl

@[simp] theorem after?_jumpz (l : Cell) : (jumpz l).after? (φ.push .word) = some φ := rfl

@[simp] theorem after?_mkbasic : mkbasic.after? (φ.push .word) = some (φ.push .ref) := rfl

@[simp] theorem after?_getbasic : getbasic.after? (φ.push .ref) = some (φ.push .word) := rfl

@[simp] theorem after?_slide (n : Nat) (k k' : Kind) :
    (slide (.int n)).after? ((φ.pushes n k).push k') = some (φ.push k') :=
  φ.slide?_push n k k'

@[simp] theorem after?_mkvec (n : Nat) :
    (mkvec (.int n)).after? (φ.pushes n .ref) = some (φ.push .ref) :=
  congrArg (Option.map (Frame.push · .ref)) (φ.takes?_pushes n .ref)

@[simp] theorem after?_mkfunval (l : Cell) :
    (mkfunval l).after? (φ.push .ref) = some (φ.push .ref) := rfl

@[simp] theorem after?_popenv : popenv.after? (φ.push .ref) = some (φ.push .ref) := rfl

@[simp] theorem after?_apply (l : Cell) (n : Nat) :
    apply.after? (((φ.mark l).pushes n .ref).push .ref) = some (φ.push .ref) :=
  φ.return?_mark l n

theorem after?_patch {m n : Nat} (h : m < n) :
    (patch (.int (m + 1))).after? ((φ.pushes n .ref).push .ref) = some (φ.pushes n .ref) := by
  have hm : natural? (.int (m + 1)) = some (m + 1) := rfl
  simp [after?, hm, List.getElem?_append_left, h]

end Instr

theorem Instr.home_after? {φ ψ : Frame} {i : Instr} (h : i.after? φ = some ψ) :
    ψ.home = φ.home := by
  have htake : ∀ {n : Nat} {k k' : Kind} {ψ : Frame},
      (φ.takes? n k).map (·.push k') = some ψ → ψ.home = φ.home := by
    intro n k k' ψ h
    obtain ⟨χ, hχ, rfl⟩ := Option.map_eq_some_iff.1 h
    rw [Frame.eq_pushes_of_takes? hχ, Frame.home_push, Frame.home_pushes]
  have hone : ∀ {k k' : Kind} {ψ : Frame},
      (φ.take? k).map (·.push k') = some ψ → ψ.home = φ.home := by
    intro k k' ψ h
    obtain ⟨χ, hχ, rfl⟩ := Option.map_eq_some_iff.1 h
    rw [Frame.eq_push_of_take? hχ, Frame.home_push, Frame.home_push]
  cases i with
  | loadc _ | pushglob _ | label _ | jump _ | mark _ => cases h; rfl
  | unary _ | mkbasic | getbasic | mkfunval _ | popenv => exact hone h
  | binary _ => exact htake h
  | jumpz _ => rw [Frame.eq_push_of_take? h, Frame.home_push]
  | slide _ =>
    obtain ⟨n, -, h⟩ := Option.bind_eq_some_iff.1 h
    exact (Frame.of_slide? h).1
  | pushloc _ =>
    obtain ⟨n, -, h⟩ := Option.bind_eq_some_iff.1 h
    obtain ⟨k, -, rfl⟩ := Option.map_eq_some_iff.1 h
    rfl
  | mkvec _ =>
    obtain ⟨n, -, h⟩ := Option.bind_eq_some_iff.1 h
    exact htake h
  | apply =>
    obtain ⟨χ, hχ, h⟩ := Option.bind_eq_some_iff.1 h
    obtain ⟨_, _, _, -, rfl, -⟩ := Frame.of_return? h
    rw [Frame.eq_push_of_take? hχ, Frame.home_push]
  | alloc _ =>
    obtain ⟨n, -, rfl⟩ := Option.map_eq_some_iff.1 h
    exact Frame.home_pushes ..
  | patch _ =>
    obtain ⟨n, -, h⟩ := Option.bind_eq_some_iff.1 h
    split at h
    · rw [Frame.eq_push_of_take? h, Frame.home_push]
    · cases h
  | pop | dup | swap => cases h

/-- Paths that follow the kinds of the words. -/
def kinds : Flow Frame := ⟨fun i φ => i.after? φ, Frame.back?, Frame.entered?⟩

/-! ## Spots -/

/-- What the code leaves on the stack, as a kind. -/
def Want.kind : Want → Kind
  | .basic => .word
  | .reference => .ref

@[simp] theorem Want.kind_basic : Want.basic.kind = .word := rfl

@[simp] theorem Want.kind_reference : Want.reference.kind = .ref := rfl

/-- What an instruction is there for. -/
inductive Note where
  | plain
  /-- It pushes a variable of the scope. -/
  | variable_ (scope : Slots) (x : String)
  /-- It stands for a part that is missing. -/
  | missing (want : Want)
  /-- It makes the places of a `local` that was compiled at the level. -/
  | places (level : Int) (count : Nat)
  /-- It fills one of these places. -/
  | binding (level : Int) (count i : Nat)
  /-- It is where a function starts. -/
  | function (params : List String) (body : Expr)

/-- An instruction, the frame that is expected before it, and what it is there for. -/
structure Spot where
  frame : Frame
  note : Note
  instr : Instr

/-- The kind that is expected of what an instruction pushes. -/
def Note.kind : Note → Kind
  | .variable_ .. => .ref
  | .missing want => want.kind
  | _ => .word

def Note.isFunction : Note → Bool
  | .function .. => true
  | _ => false

def Instr.pushes : Instr → Bool
  | .loadc _ | .pushloc _ => true
  | _ => false

namespace Spot

/-- The label that the instruction may go to. -/
def target? (σ : Spot) : Option Cell := σ.instr.target? σ.frame.back?

/-- After the instruction the frame is expected; what is pushed may yet be of another kind. -/
def Leads (σ : Spot) (φ : Frame) : Prop :=
  if σ.instr.pushes = true then φ = σ.frame.push σ.note.kind else σ.instr.after? σ.frame = some φ

/-- The function of the code stays the same. -/
theorem Leads.home {σ : Spot} {φ : Frame} (h : σ.Leads φ) : φ.home = σ.frame.home := by
  rw [Leads] at h
  split at h
  · rw [h, Frame.home_push]
  · exact Instr.home_after? h

abbrev Starts (σ : Spot) : Prop := σ.note.isFunction = true

end Spot

/-- The frame before some spots, with `ε` behind them. -/
def first (ε : Frame) : List Spot → Frame
  | [] => ε
  | σ :: _ => σ.frame

/-- Each frame is what the instruction before it leads to. -/
def Linked (ε : Frame) : List Spot → Prop
  | [] => True
  | σ :: S => (σ.instr.falls = true → σ.Leads (first ε S)) ∧ Linked ε S

/-- What is not reached from the instruction before it is the start of a function, or the label of
    an earlier jump; the spots `B` come before. -/
def Entered (B : List Spot) : List Spot → Prop
  | [] => True
  | σ :: S => (σ.instr.falls = false → ∃ τ l, S.head? = some τ ∧ τ.instr = .label l ∧
      (τ.Starts ∨ ∃ ρ ∈ B ++ [σ], ρ.target? = some l ∧ ρ.Leads τ.frame)) ∧ Entered (B ++ [σ]) S

/-- The label that the instruction may go to is one of the spots. -/
def RoutedIn (S : List Spot) (σ : Spot) : Prop := ∀ l, σ.target? = some l →
  ∃ τ ∈ S, ∃ x, l = .text x ∧ τ.instr = .label (.text x) ∧ σ.Leads τ.frame

/-- The labels that the instructions may go to are among them. -/
def Routed (S : List Spot) : Prop := ∀ σ ∈ S, RoutedIn S σ

section
variable {ε : Frame} {σ : Spot} {S T B : List Spot}

@[simp] theorem first_nil : first ε [] = ε := rfl

@[simp] theorem first_cons : first ε (σ :: S) = σ.frame := rfl

@[simp] theorem first_append : first ε (S ++ T) = first (first ε T) S := by
  cases S <;> rfl

@[simp] theorem linked_nil : Linked ε [] := trivial

@[simp] theorem linked_cons : Linked ε (σ :: S) ↔
    (σ.instr.falls = true → σ.Leads (first ε S)) ∧ Linked ε S := Iff.rfl

@[simp] theorem linked_append : Linked ε (S ++ T) ↔ Linked (first ε T) S ∧ Linked ε T := by
  induction S with
  | nil => simp
  | cons σ S ih => simp [ih, and_assoc]

theorem entered_nil : Entered B [] := trivial

theorem Entered.append (hS : Entered B S) (hT : Entered (B ++ S) T) : Entered B (S ++ T) := by
  induction S generalizing B with
  | nil => simpa using hT
  | cons σ S ih =>
    refine ⟨fun hf => ?_, ih hS.2 (by simpa using hT)⟩
    obtain ⟨τ, l, hτ, h⟩ := hS.1 hf
    exact ⟨τ, l, by simp [List.head?_append, hτ], h⟩

/-- Instructions that are followed by the next one need no other entry. -/
theorem entered_cons (hf : σ.instr.falls = true) (h : Entered (B ++ [σ]) S) :
    Entered B (σ :: S) := ⟨by simp [hf], h⟩

theorem entered_label {τ : Spot} {l : Cell} (hl : τ.instr = .label l)
    (h : τ.Starts ∨ ∃ ρ ∈ B ++ [σ], ρ.target? = some l ∧ ρ.Leads τ.frame)
    (hS : Entered (B ++ [σ] ++ [τ]) S) : Entered B (σ :: τ :: S) :=
  ⟨fun _ => ⟨τ, l, rfl, hl, h⟩, entered_cons (by rw [hl]; rfl) hS⟩

theorem RoutedIn.mono (h : RoutedIn S σ) (hS : ∀ τ ∈ S, τ ∈ T) : RoutedIn T σ := by
  intro l hl
  obtain ⟨τ, hτ, h⟩ := h l hl
  exact ⟨τ, hS τ hτ, h⟩

theorem routed_nil : Routed [] := by simp [Routed]

theorem Routed.append (hS : Routed S) (hT : Routed T) : Routed (S ++ T) := by
  intro σ hσ
  rcases List.mem_append.1 hσ with hσ | hσ
  · exact (hS σ hσ).mono (by simp +contextual)
  · exact (hT σ hσ).mono (by simp +contextual)

theorem Routed.cons (hσ : RoutedIn (σ :: S) σ) (hS : Routed S) : Routed (σ :: S) := by
  intro τ hτ
  rcases List.mem_cons.1 hτ with rfl | hτ
  · exact hσ
  · exact (hS τ hτ).mono (by simp +contextual)

/-- An instruction that goes nowhere. -/
theorem Routed.plain (h : σ.target? = none) (hS : Routed S) : Routed (σ :: S) := by
  refine hS.cons fun l hl => ?_
  rw [h] at hl
  cases hl

theorem Routed.jump {τ : Spot} {x : String} (h : σ.target? = some (.text x)) (hτ : τ ∈ S)
    (hx : τ.instr = .label (.text x)) (hleads : σ.Leads τ.frame) (hS : Routed S) :
    Routed (σ :: S) := by
  refine hS.cons fun l hl => ?_
  rw [h] at hl
  exact ⟨τ, .tail σ hτ, x, (Option.some.inj hl).symm, hx, hleads⟩

end

/-! ## Paths come by spots -/

section
variable {α : Type} {F : Flow α} {g : Frame → α} {P : List Instr} {enters : Cell → α → Prop}
  {calls : Nat → Cell → Prop} {start a : α} {ε : Frame} {S : List Spot} {n : Nat}

/-- The flow sees what is expected of the spot. -/
structure Follows (F : Flow α) (g : Frame → α) (σ : Spot) : Prop where
  after : ∀ φ, σ.Leads φ → F.after? σ.instr (g σ.frame) = some (g φ)
  back : F.back? (g σ.frame) = σ.frame.back?

theorem getElem?_of_placed {code : List Instr} {i : Instr} {j : Nat} (h : Placed P n code)
    (hj : code[j]? = some i) : P[n + j]? = some i := by
  obtain ⟨before, after, rfl, rfl⟩ := h
  have hlt : j < code.length := (List.getElem?_eq_some_iff.1 hj).1
  rw [List.append_assoc, List.getElem?_append_right (by omega), Nat.add_sub_cancel_left,
    List.getElem?_append_left hlt, hj]

/-- Where paths come by the first of some spots and by the starts of functions, they come by all of
    them. -/
theorem visits_of_linked {m : Nat} : ∀ {S B : List Spot}, Linked ε S → Entered B S →
    Placed P m ((B ++ S).map Spot.instr) → (∀ σ ∈ B ++ S, Follows F g σ) →
    (∀ q l, ∀ τ ∈ S, τ.Starts → τ.instr = .label l → P[q]? = some (.label l) →
      Visits F P enters calls start q (g τ.frame)) →
    (∀ j ρ, B[j]? = some ρ → Visits F P enters calls start (m + j) (g ρ.frame)) →
    Visits F P enters calls start (m + B.length) (g (first ε S)) →
    ∀ n ≤ S.length, Visits F P enters calls start (m + B.length + n) (g (first ε (S.drop n)))
  | [], B, _, _, _, _, _, _, h, n, hn => by
    obtain rfl : n = 0 := by simpa using hn
    exact h
  | σ :: S, B, hl, he, hp, hF, hs, hB, h, 0, _ => h
  | σ :: S, B, hl, he, hp, hF, hs, hB, h, n + 1, hn => by
    have hplaced : Placed P (m + B.length) (σ.instr :: S.map Spot.instr) := by
      rw [List.map_append] at hp
      simpa using hp.right
    -- every spot so far stands in the program and is visited
    have hB' : ∀ j ρ, (B ++ [σ])[j]? = some ρ →
        P[m + j]? = some ρ.instr ∧ Visits F P enters calls start (m + j) (g ρ.frame) := by
      intro j ρ hj
      refine ⟨getElem?_of_placed hp ?_, ?_⟩
      · rw [List.getElem?_map, List.append_cons, List.getElem?_append_left, hj]
        · rfl
        · exact (List.getElem?_eq_some_iff.1 hj).1
      · rcases Nat.lt_or_ge j B.length with hlt | hge
        · exact hB j ρ (by rwa [List.getElem?_append_left hlt] at hj)
        · rw [List.getElem?_append_right hge, List.getElem?_singleton] at hj
          split at hj
          · cases hj
            rwa [show j = B.length by omega]
          · cases hj
    have hnext : Visits F P enters calls start (m + B.length + 1) (g (first ε S)) := by
      cases hf : σ.instr.falls with
      | true => exact .fall h hplaced.head hf ((hF σ (by simp)).after _ (hl.1 hf))
      | false =>
        obtain ⟨τ, l, hτ, hlabel, hentry⟩ := he.1 hf
        obtain ⟨S', rfl⟩ : ∃ S', S = τ :: S' := by
          cases S with
          | nil => cases hτ
          | cons τ' S' => cases hτ; exact ⟨S', rfl⟩
        have hq : P[m + B.length + 1]? = some (.label l) := hlabel ▸ hplaced.tail.head
        rcases hentry with hstarts | ⟨ρ, hρ, htarget, hleads⟩
        · exact hs _ l τ (by simp) hstarts hlabel hq
        · obtain ⟨j, hj⟩ := List.mem_iff_getElem?.1 hρ
          obtain ⟨hi, hv⟩ := hB' j ρ hj
          have hρF : Follows F g ρ := hF ρ (by simp at hρ ⊢; tauto)
          exact .go hv hi (by rw [hρF.back]; exact htarget) (hρF.after _ hleads) hq
    have ih := visits_of_linked (B := B ++ [σ]) hl.2 he.2 (by simpa using hp) (by simpa using hF)
      (fun q l τ hτ => hs q l τ (.tail σ hτ)) (fun j ρ hj => (hB' j ρ hj).2)
      (by simpa [Nat.add_assoc] using hnext) n (by simpa using hn)
    simpa [Nat.add_assoc, Nat.add_comm 1 n] using ih

theorem spot_at {i : Instr} (h : (S.map Spot.instr)[n]? = some i) :
    ∃ σ, S[n]? = some σ ∧ σ.instr = i := by
  rwa [List.getElem?_map, Option.map_eq_some_iff] at h

theorem first_drop {σ : Spot} (h : S[n]? = some σ) : first ε (S.drop n) = σ.frame := by
  rw [List.drop_eq_getElem?_toList_append, h]
  rfl

/-- A label that is used once stands at one place. -/
theorem spot_of_label {τ : Spot} {x : String} (hP : (labels (S.map Spot.instr)).Nodup) (hτ : τ ∈ S)
    (hx : τ.instr = .label (.text x)) (hn : (S.map Spot.instr)[n]? = some (.label (.text x))) :
    S[n]? = some τ := by
  obtain ⟨k, hk⟩ := List.mem_iff_getElem?.1 hτ
  have hk' : (S.map Spot.instr)[k]? = some (.label (.text x)) := by simp [hk, hx]
  have hname : Instr.name? (.label (.text x)) = some x := rfl
  cases (position?_eq hname hP hk').symm.trans (position?_eq hname hP hn)
  exact hk

theorem Linked.leads {σ : Spot} (h : Linked ε S) (hn : S[n]? = some σ)
    (hf : σ.instr.falls = true) : σ.Leads (first ε (S.drop (n + 1))) := by
  have hS : S = S.take n ++ σ :: S.drop (n + 1) := by
    obtain ⟨hlt, rfl⟩ := List.getElem?_eq_some_iff.1 hn
    rw [← List.drop_eq_getElem_cons hlt, List.take_append_drop]
  rw [hS, linked_append, linked_cons] at h
  exact h.2.1 hf

/-- Paths see what is expected at the spots, over words that are there at the start of the function.
    Which words these may be is said by `A`. -/
theorem of_visits {κ : Type} {g : κ → Frame → α} {A : Option Cell → κ → Prop} (u₀ : κ)
    (hP : (labels (S.map Spot.instr)).Nodup) (hl : Linked ε S) (hr : Routed S)
    (hF : ∀ σ ∈ S, ∀ u, A σ.frame.home u → Follows F (g u) σ)
    (hs : ∀ l a, enters l a → ∃ τ ∈ S, ∃ x u, l = .text x ∧ τ.instr = .label (.text x) ∧
      A τ.frame.home u ∧ a = g u τ.frame)
    (hc : ∀ n l b, ∀ σ ∈ S, ∀ u, S[n]? = some σ → σ.instr = .apply → calls n l →
      .mkfunval l ∈ S.map Spot.instr → A σ.frame.home u →
      F.entered? l (g u σ.frame) = some b → ∃ τ ∈ S, ∃ x u, l = .text x ∧
        τ.instr = .label (.text x) ∧ A τ.frame.home u ∧ b = g u τ.frame)
    (h₀ : A (first ε S).home u₀)
    (h : Visits F (S.map Spot.instr) enters calls (g u₀ (first ε S)) n a) :
    n ≤ S.length ∧ ∃ u, A (first ε (S.drop n)).home u ∧ a = g u (first ε (S.drop n)) := by
  induction h with
  | start => exact ⟨Nat.zero_le _, u₀, h₀, rfl⟩
  | enter hq he =>
    obtain ⟨τ, hτ, x, u, rfl, hx, hu, rfl⟩ := hs _ _ he
    have hn := spot_of_label hP hτ hx hq
    exact ⟨(List.getElem?_eq_some_iff.1 hn).1.le, u, by rwa [first_drop hn], by rw [first_drop hn]⟩
  | fall _ hi hf hb ih =>
    obtain ⟨σ, hσ, rfl⟩ := spot_at hi
    obtain ⟨-, u, hu, rfl⟩ := ih
    rw [first_drop hσ] at hu hb
    have hleads := hl.leads hσ hf
    rw [(hF σ (List.mem_of_getElem? hσ) u hu).after _ hleads] at hb
    exact ⟨(List.getElem?_eq_some_iff.1 hσ).1, u, by rwa [hleads.home], (Option.some.inj hb).symm⟩
  | go _ hi hgo hb hq ih =>
    obtain ⟨σ, hσ, rfl⟩ := spot_at hi
    obtain ⟨-, u, hu, rfl⟩ := ih
    rw [first_drop hσ] at hu hb hgo
    have hfollows := hF σ (List.mem_of_getElem? hσ) u hu
    rw [hfollows.back] at hgo
    obtain ⟨τ, hτ, x, rfl, hx, hleads⟩ := hr σ (List.mem_of_getElem? hσ) _ hgo
    have hn := spot_of_label hP hτ hx hq
    rw [hfollows.after _ hleads] at hb
    refine ⟨(List.getElem?_eq_some_iff.1 hn).1.le, u, ?_, ?_⟩
    · rwa [first_drop hn, hleads.home]
    · rw [first_drop hn, Option.some.inj hb]
  | call _ hi hcalls hmade hb hq ih =>
    obtain ⟨σ, hσ, happly⟩ := spot_at hi
    obtain ⟨-, u, hu, rfl⟩ := ih
    rw [first_drop hσ] at hu hb
    obtain ⟨τ, hτ, x, u', rfl, hx, hu', rfl⟩ :=
      hc _ _ _ σ (List.mem_of_getElem? hσ) u hσ happly hcalls hmade hu hb
    have hn := spot_of_label hP hτ hx hq
    exact ⟨(List.getElem?_eq_some_iff.1 hn).1.le, u', by rwa [first_drop hn],
      by rw [first_drop hn]⟩

end

end ExprLang.MaMa
