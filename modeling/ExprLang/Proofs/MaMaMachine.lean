/-
  The MaMa at work.

  The stack is a list of words, its top first, and an address on it is the height at which the word
  lies.  The heap holds a word at every address; what lies from `fresh` on has not been used yet.
  An object starts with a tag:

  * a basic value `[B, word]`;
  * a vector `[V, size, reference, ...]`;
  * a function `[F, code, 0, vector]`.

  `exec` does what the text of one instruction does, and `step` the instruction at `pc`.
-/
import ExprLang.MaMa.Generate
import ExprLang.Proofs.Words
import Mathlib.Logic.Function.Basic
import Mathlib.Tactic.Simps.Basic

namespace ExprLang.MaMa

/-! ## States -/

/-- The registers, the stack and the heap. -/
structure State where
  pc : Nat
  stack : List Int
  /-- The height of the frame of the current call. -/
  fp : Int
  /-- The vector of the captured variables. -/
  gp : Int
  heap : Int → Int
  fresh : Int

def writeWords (heap : Int → Int) (a : Int) : List Int → Int → Int
  | [] => heap
  | w :: ws => writeWords (Function.update heap a w) (a + 1) ws

theorem writeWords_before {a b : Int} (hb : b < a) :
    ∀ (heap : Int → Int) (ws : List Int), writeWords heap a ws b = heap b
  | _, [] => rfl
  | heap, w :: ws => by
    rw [writeWords, writeWords_before (by omega), Function.update_of_ne (by omega)]

theorem writeWords_get {w : Int} : ∀ (heap : Int → Int) (a : Int) (ws : List Int) (i : Nat),
    ws[i]? = some w → writeWords heap a ws (a + i) = w
  | _, _, [], _, h => by simp at h
  | heap, a, v :: ws, 0, h => by
    rw [writeWords, writeWords_before (by omega)]
    simpa using h
  | heap, a, v :: ws, i + 1, h => by
    have ih := writeWords_get (Function.update heap a v) (a + 1) ws i (by simpa using h)
    rwa [writeWords, show a + ((i + 1 : Nat) : Int) = a + 1 + i by omega]

namespace State

@[simps -fullyApplied] def on (m : State) (s : List Int) : State := { m with stack := s }

/-- One word more on the stack. -/
@[simps! -fullyApplied] def push (m : State) (w : Int) : State := m.on (w :: m.stack)

/-- Makes an object of some words and pushes a reference to it. -/
@[simps -fullyApplied] def object (m : State) (ws : List Int) : State :=
  { m with stack := m.fresh :: m.stack, heap := writeWords m.heap m.fresh ws,
           fresh := m.fresh + ws.length }

/-- Goes on with the top word and the rest of the stack. -/
def pop? (m : State) (k : Int → List Int → Option State) : Option State :=
  match m.stack with
  | v :: s => k v s
  | [] => none

theorem pop?_eq {m : State} {v : Int} {s : List Int} (h : m.stack = v :: s)
    (k : Int → List Int → Option State) : m.pop? k = k v s := by rw [pop?, h]

@[simps -fullyApplied] def next (m : State) : State := { m with pc := m.pc + 1 }

@[simps -fullyApplied] def jumpTo (m : State) (n : Nat) : State := { m with pc := n }

end State

def tagB : Int := 'B'.toNat
@[inherit_doc tagB] def tagV : Int := 'V'.toNat
@[inherit_doc tagB] def tagF : Int := 'F'.toNat

/-- Pushes references to some objects without contents. -/
def State.blanks (m : State) : Nat → State
  | 0 => m
  | n + 1 => (m.object [tagF, 0, 0, 0]).blanks n

def copyWord (heap : Int → Int) (src dst : Int) : Int → Int := Function.update heap dst (heap src)

/-- Copies the contents of an object over another one, word by word. -/
@[simps -fullyApplied] def State.copy (m : State) (src dst : Int) : State :=
  { m with heap := copyWord (copyWord (copyWord m.heap (src + 1) (dst + 1)) (src + 2) (dst + 2))
             (src + 3) (dst + 3) }

/-! ## Instructions -/

def Instr.name? : Instr → Option String
  | .label (.text l) => some l
  | _ => none

/-- The number that an operand stands for. -/
def count? (P : List Instr) (c : Cell) : Option Nat := (word? Instr.name? P c).bind Int.toNat?

theorem count?_int (P : List Instr) (k : Nat) : count? P (.int k) = some k := rfl

/-- What one instruction of `P` does; there is no state after a jump to nowhere, or if the stack
does not hold what the instruction needs. -/
def exec (P : List Instr) (m : State) : Instr → Option State
  | .loadc v => (word? Instr.name? P v).map fun w => (m.push w).next
  | .pop => m.pop? fun _ s => some (m.on s).next
  | .dup => m.pop? fun v s => some (m.on (v :: v :: s)).next
  | .swap => m.pop? fun v s => (m.on s).pop? fun w s => some (m.on (w :: v :: s)).next
  | .unary op => m.pop? fun v s => some (m.on (op.apply v :: s)).next
  | .binary op => m.pop? fun w s => (m.on s).pop? fun v s =>
    (op.apply v w).map fun r => (m.on (r :: s)).next
  | .label _ => some m.next
  | .jump l => (target? Instr.name? P l).map m.jumpTo
  | .jumpz l => m.pop? fun v s =>
    if v = 0 then (target? Instr.name? P l).map (m.on s).jumpTo else some (m.on s).next
  | .mkbasic => m.pop? fun v s => some ((m.on s).object [tagB, v]).next
  | .getbasic => m.pop? fun r s => some (m.on (m.heap (r + 1) :: s)).next
  | .slide n => (count? P n).bind fun k => m.pop? fun v s => some (m.on (v :: s.drop k)).next
  | .pushloc n => (count? P n).bind fun k => m.stack[k]?.map fun w => (m.push w).next
  | .pushglob n =>
    (word? Instr.name? P n).map fun k => (m.push (m.heap (m.gp + 2 + k))).next
  | .mkvec n => (count? P n).bind fun k =>
    if k ≤ m.stack.length then
      some ((m.on (m.stack.drop k)).object (tagV :: k :: (m.stack.take k).reverse)).next
    else none
  | .mkfunval l => (target? Instr.name? P l).bind fun k => m.pop? fun g s =>
    some ((m.on s).object [tagF, k, 0, g]).next
  | .popenv => m.pop? fun v _ =>
    match m.stack.drop (m.stack.length - m.fp.toNat) with
    | ret :: fp :: gp :: rest =>
      ret.toNat?.map { m with stack := v :: rest, fp := fp, gp := gp }.jumpTo
    | _ => none
  | .mark l => (target? Instr.name? P l).map fun k =>
    { m with stack := k :: m.fp :: m.gp :: m.stack, fp := m.stack.length + 3 }.next
  | .apply => m.pop? fun r s =>
    (m.heap (r + 1)).toNat?.map { m with stack := s, gp := m.heap (r + 3) }.jumpTo
  | .alloc n => (count? P n).map fun k => (m.blanks k).next
  | .patch n => (count? P n).bind fun k => m.stack[k]?.bind fun d => m.pop? fun r s =>
    some ((m.on s).copy r d).next

def step (P : List Instr) (m : State) : Option State := P[m.pc]?.bind (exec P m)

example : ((step [.loadc (.int 7)] ⟨0, [5], 0, 0, fun _ => 0, 1⟩).map fun m => (m.pc, m.stack)) =
    some (1, [7, 5]) := by decide

abbrev Runs (P : List Instr) : State → State → Prop := Reaches (step P)

/-! ## Runs, instruction by instruction -/

theorem target?_eq {P c : List Instr} {n : Nat} {l : String}
    (hP : (labelsOf Instr.name? P).Nodup) (h : Placed P n (.label (.text l) :: c)) :
    target? Instr.name? P (.text l) = some n :=
  position?_eq (show Instr.name? (.label (.text l)) = some l from rfl) hP h.head

namespace Runs

variable {P c : List Instr} {m m' : State} {l : String} {s : List Int} {v w : Int} {n k : Nat}

theorem step {m₁ : State} {i : Instr} (h : Placed P m.pc (i :: c)) (hi : exec P m i = some m₁)
    (hr : Runs P m₁ m') : Runs P m m' :=
  Reaches.head (by rw [MaMa.step, h.head]; exact hi) hr

theorem loadc {a : Cell} (h : Placed P m.pc (.loadc a :: c)) (ha : word? Instr.name? P a = some w)
    (hr : Runs P (m.push w).next m') : Runs P m m' := .step h (by rw [exec, ha]; rfl) hr

theorem unary {o : CMa.UnaryOp} (h : Placed P m.pc (.unary o :: c)) (hs : m.stack = v :: s)
    (hr : Runs P (m.on (o.apply v :: s)).next m') : Runs P m m' :=
  .step h (by rw [exec, State.pop?_eq hs]) hr

theorem binary {o : CMa.BinaryOp} {r : Int} (h : Placed P m.pc (.binary o :: c))
    (hs : m.stack = w :: v :: s) (ho : o.apply v w = some r)
    (hr : Runs P (m.on (r :: s)).next m') : Runs P m m' :=
  .step h (by rw [exec, State.pop?_eq hs, State.pop?_eq rfl, ho]; rfl) hr

theorem label {a : Cell} (h : Placed P m.pc (.label a :: c)) (hr : Runs P m.next m') :
    Runs P m m' := .step h rfl hr

theorem jump (h : Placed P m.pc (.jump (.text l) :: c))
    (hl : target? Instr.name? P (.text l) = some n) (hr : Runs P (m.jumpTo n) m') : Runs P m m' :=
  .step h (by rw [exec, hl]; rfl) hr

theorem jumpz_zero (h : Placed P m.pc (.jumpz (.text l) :: c)) (hs : m.stack = 0 :: s)
    (hl : target? Instr.name? P (.text l) = some n) (hr : Runs P ((m.on s).jumpTo n) m') :
    Runs P m m' := .step h (by rw [exec, State.pop?_eq hs, if_pos rfl, hl]; rfl) hr

theorem jumpz_other (h : Placed P m.pc (.jumpz (.text l) :: c)) (hs : m.stack = v :: s)
    (h0 : v ≠ 0) (hr : Runs P (m.on s).next m') : Runs P m m' :=
  .step h (by rw [exec, State.pop?_eq hs, if_neg h0]) hr

theorem mkbasic (h : Placed P m.pc (.mkbasic :: c)) (hs : m.stack = v :: s)
    (hr : Runs P ((m.on s).object [tagB, v]).next m') : Runs P m m' :=
  .step h (by rw [exec, State.pop?_eq hs]) hr

theorem getbasic (h : Placed P m.pc (.getbasic :: c)) (hs : m.stack = v :: s)
    (hr : Runs P (m.on (m.heap (v + 1) :: s)).next m') : Runs P m m' :=
  .step h (by rw [exec, State.pop?_eq hs]) hr

theorem slide (h : Placed P m.pc (.slide (.int k) :: c)) (hs : m.stack = v :: s)
    (hr : Runs P (m.on (v :: s.drop k)).next m') : Runs P m m' :=
  .step h (by rw [exec, count?_int, Option.bind_some, State.pop?_eq hs]) hr

theorem pushloc (h : Placed P m.pc (.pushloc (.int k) :: c)) (hw : m.stack[k]? = some w)
    (hr : Runs P (m.push w).next m') : Runs P m m' :=
  .step h (by rw [exec, count?_int, Option.bind_some, hw]; rfl) hr

theorem pushglob {i : Int} (h : Placed P m.pc (.pushglob (.int i) :: c))
    (hr : Runs P (m.push (m.heap (m.gp + 2 + i))).next m') : Runs P m m' := .step h rfl hr

theorem mkvec {ws : List Int} (h : Placed P m.pc (.mkvec (.int ws.length) :: c))
    (hs : m.stack = ws.reverse ++ s)
    (hr : Runs P ((m.on s).object (tagV :: ws.length :: ws)).next m') : Runs P m m' := by
  refine .step h ?_ hr
  rw [exec, count?_int, Option.bind_some, hs, if_pos (by simp)]
  simp

theorem mkfunval (h : Placed P m.pc (.mkfunval (.text l) :: c)) (hs : m.stack = v :: s)
    (hl : target? Instr.name? P (.text l) = some n)
    (hr : Runs P ((m.on s).object [tagF, n, 0, v]).next m') : Runs P m m' :=
  .step h (by rw [exec, hl, Option.bind_some, State.pop?_eq hs]) hr

theorem mark (h : Placed P m.pc (.mark (.text l) :: c))
    (hl : target? Instr.name? P (.text l) = some n)
    (hr : Runs P { m with stack := n :: m.fp :: m.gp :: m.stack,
                          fp := m.stack.length + 3 }.next m') : Runs P m m' :=
  .step h (by rw [exec, hl]; rfl) hr

theorem apply (h : Placed P m.pc (.apply :: c)) (hs : m.stack = v :: s) (hn : m.heap (v + 1) = n)
    (hr : Runs P ({ m with stack := s, gp := m.heap (v + 3) }.jumpTo n) m') : Runs P m m' :=
  .step h (by rw [exec, State.pop?_eq hs, hn]; rfl) hr

/-- Leaving a function: above the words of `mark` lie its result and what is left of its stack. -/
theorem popenv {fp gp : Int} {used : List Int} (h : Placed P m.pc (.popenv :: c))
    (hs : m.stack = v :: used ++ (n : Int) :: fp :: gp :: s) (hfp : m.fp = s.length + 3)
    (hr : Runs P ({ m with stack := v :: s, fp := fp, gp := gp }.jumpTo n) m') : Runs P m m' := by
  refine .step h ?_ hr
  have hlen : m.stack.length - m.fp.toNat = (v :: used).length := by rw [hfp, hs]; simp; omega
  have hdrop : m.stack.drop (v :: used).length = (n : Int) :: fp :: gp :: s := by
    rw [hs, List.drop_left]
  rw [exec, State.pop?_eq hs, hlen, hdrop]
  rfl

theorem alloc (h : Placed P m.pc (.alloc (.int k) :: c)) (hr : Runs P (m.blanks k).next m') :
    Runs P m m' := .step h (by rw [exec, count?_int]; rfl) hr

theorem patch (h : Placed P m.pc (.patch (.int k) :: c)) (hs : m.stack = v :: s)
    (hw : (v :: s)[k]? = some w) (hr : Runs P ((m.on s).copy v w).next m') : Runs P m m' :=
  .step h (by rw [exec, count?_int, Option.bind_some, hs, hw, Option.bind_some,
    State.pop?_eq hs]) hr

end Runs

end ExprLang.MaMa
