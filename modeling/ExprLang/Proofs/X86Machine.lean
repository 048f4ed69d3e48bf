/-
  The processor that assembly text is for.

  As much of x86-64 as arithmetic needs: three registers, the flags that signed conditions look at,
  and the words on the stack, the topmost first.

  * `Instr.exec` is what one instruction does.  A division whose quotient does not fit raises a
    divide error, and after a multiplication or a division some flags are left open;
  * `read?` reads the instructions in a text, line by line;
  * `Leaves vm c s ws`: the text that the machine `vm` gets for the cell `c` can be read, and from
    the state `s` it runs to its end and leaves the words `ws` on the stack.

  `Flags.holds_iff`: after a comparison, the condition codes say what the signed order says.
  `read?_commented`: the text of a template is read line by line, so it is enough to know what each
  line says (`Says`).
-/
import ExprLang.Code.Compile
import ExprLang.Proofs.AssemblyLines
import ExprLang.Proofs.Words
import Mathlib

namespace ExprLang.X86

variable {code : List Instr} {line : String} {i : Instr} {lines : List String}

abbrev Word := BitVec 64

/-- The registers. -/
inductive Reg where
  | rax | rcx | rdx
deriving DecidableEq, Repr

/-- The flags that signed conditions look at. -/
structure Flags where
  zero : Bool
  sign : Bool
  overflow : Bool

/-- The registers, the flags, and the words on the stack. -/
structure State where
  regs : Reg → Word
  /-- Nothing is known of them where the last operation leaves some of them open. -/
  flags : Option Flags
  stack : List Word

/-- Why there is no state after an instruction. -/
inductive Trap where
  /-- The divisor is zero, or the quotient does not fit. -/
  | divideError
  | emptyStack
  /-- A condition on flags that were left open. -/
  | openFlags
deriving DecidableEq, Repr

/-! ## Conditions -/

/-- The conditions that bytes are set by. -/
inductive Cond where
  | e | ne | l | le | g | ge
deriving DecidableEq, Repr

namespace Flags

def ofResult (w : Word) (overflow : Bool) : Flags := ⟨w == 0, w.msb, overflow⟩

def ofSub (a b : Word) : Flags := ofResult (a - b) (a.ssubOverflow b)

def holds (f : Flags) : Cond → Bool
  | .e => f.zero
  | .ne => !f.zero
  | .l => f.sign != f.overflow
  | .le => f.zero || f.sign != f.overflow
  | .g => !f.zero && f.sign == f.overflow
  | .ge => f.sign == f.overflow

end Flags

def Cond.test : Cond → Int → Int → Prop
  | e, x, y => x = y
  | ne, x, y => x ≠ y
  | l, x, y => x < y
  | le, x, y => x ≤ y
  | g, x, y => y < x
  | ge, x, y => y ≤ x

namespace Flags

theorem zero_ofSub (a b : Word) : (ofSub a b).zero = true ↔ a.toInt = b.toInt := by
  have hzero : a - b = 0 ↔ a = b := sub_eq_zero
  rw [BitVec.toInt_inj, ← hzero]
  exact beq_iff_eq

theorem sign_ofSub (a b : Word) :
    ((ofSub a b).sign != (ofSub a b).overflow) = true ↔ a.toInt < b.toInt := by
  have ha := a.toInt_lt
  have ha' := a.le_toInt
  have hb := b.toInt_lt
  have hb' := b.le_toInt
  simp only [ofSub, ofResult, BitVec.msb_eq_toInt, BitVec.toInt_sub, BitVec.ssubOverflow,
    Int.bmod_def]
  rw [bne_iff_ne, ne_eq, Bool.eq_iff_iff]
  simp only [decide_eq_true_eq, Bool.or_eq_true]
  omega

/-- **After a comparison, the condition codes say what the signed order says.** -/
theorem holds_iff (a b : Word) (c : Cond) : (ofSub a b).holds c = true ↔ c.test a.toInt b.toInt := by
  have hzero := zero_ofSub a b
  have hsign := sign_ofSub a b
  have hsame : ((ofSub a b).sign == (ofSub a b).overflow) = true ↔ ¬ a.toInt < b.toInt := by
    rw [← hsign]
    simp
  cases c with
  | e => exact hzero
  | ne => simpa [holds, Cond.test] using not_congr hzero
  | l => exact hsign
  | le =>
    rw [holds, Bool.or_eq_true, hzero, hsign, Cond.test]
    omega
  | g =>
    rw [holds, Bool.and_eq_true, hsame, Bool.not_eq_true', ← Bool.not_eq_true, hzero, Cond.test]
    omega
  | ge =>
    rw [holds, hsame, Cond.test]
    omega

end Flags

/-! ## Instructions -/

/-- The instructions.  A byte is always the lowest one of `rax`. -/
inductive Instr where
  | push (r : Reg)
  | pop (r : Reg)
  | neg (r : Reg)
  | inc (r : Reg)
  | dec (r : Reg)
  | add (r r' : Reg)
  | sub (r r' : Reg)
  | cmp (r r' : Reg)
  /-- Extends the lower half of `rax` by its sign into that of `rdx`. -/
  | cdq
  /-- `rdx` and `rax` become the product of `rax` and a register, without signs. -/
  | mul (r : Reg)
  /-- So they do, with signs. -/
  | imul (r : Reg)
  /-- `rdx` and `rax` together are divided by a register, without signs. -/
  | div (r : Reg)
  /-- So they are, with signs. -/
  | idiv (r : Reg)
  | set (c : Cond)
  /-- Clears all of `rax` but the lowest byte. -/
  | movzx
deriving DecidableEq, Repr

namespace State

/-- A register replaced. -/
def put (s : State) (r : Reg) (w : Word) : State := { s with regs := Function.update s.regs r w }

/-- A register replaced by a result, whose flags are set. -/
def result (s : State) (r : Reg) (w : Word) (overflow : Bool) : State :=
  { s.put r w with flags := some (.ofResult w overflow) }

/-- Both halves of a long result, and the flags left open. -/
def pair (s : State) (rdx rax : Word) : State :=
  { (s.put .rdx rdx).put .rax rax with flags := none }

end State

/-- The sign of the lower half of a word, repeated.  A write to the lower half of a register clears
    its upper half. -/
def signHalf (w : Word) : Word :=
  (if (w.setWidth 32).msb then BitVec.allOnes 32 else 0#32).setWidth 64

/-- The quotient without signs of `n` by `d` and the remainder, if they fit. -/
def unsignedDivision (n d : Nat) : Except Trap (Word × Word) :=
  if d = 0 ∨ 2 ^ 64 ≤ n / d then .error .divideError
  else .ok (.ofNat 64 (n / d), .ofNat 64 (n % d))

/-- The quotient with signs of `n` by `d`, cut off towards zero, and the remainder, if they fit. -/
def signedDivision (n d : Int) : Except Trap (Word × Word) :=
  if d = 0 ∨ n.tdiv d < -2 ^ 63 ∨ 2 ^ 63 ≤ n.tdiv d then .error .divideError
  else .ok (.ofInt 64 (n.tdiv d), .ofInt 64 (n.tmod d))

def Instr.exec (s : State) : Instr → Except Trap State
  | push r => .ok { s with stack := s.regs r :: s.stack }
  | pop r =>
    match s.stack with
    | [] => .error .emptyStack
    | w :: ws => .ok { s.put r w with stack := ws }
  | neg r => .ok (s.result r (-s.regs r) (s.regs r).negOverflow)
  | inc r => .ok (s.result r (s.regs r + 1) ((s.regs r).saddOverflow 1))
  | dec r => .ok (s.result r (s.regs r - 1) ((s.regs r).ssubOverflow 1))
  | add r r' =>
    .ok (s.result r (s.regs r + s.regs r') ((s.regs r).saddOverflow (s.regs r')))
  | sub r r' =>
    .ok (s.result r (s.regs r - s.regs r') ((s.regs r).ssubOverflow (s.regs r')))
  | cmp r r' => .ok { s with flags := some (.ofSub (s.regs r) (s.regs r')) }
  | cdq => .ok (s.put .rdx (signHalf (s.regs .rax)))
  | mul r =>
    let n := (s.regs .rax).toNat * (s.regs r).toNat
    .ok (s.pair (.ofNat 64 (n / 2 ^ 64)) (.ofNat 64 n))
  | imul r =>
    let n := (s.regs .rax).toInt * (s.regs r).toInt
    .ok (s.pair (.ofInt 64 (n / 2 ^ 64)) (.ofInt 64 n))
  | div r => do
    let (q, m) ← unsignedDivision ((s.regs .rdx).toNat * 2 ^ 64 + (s.regs .rax).toNat)
      (s.regs r).toNat
    return s.pair m q
  | idiv r => do
    let (q, m) ← signedDivision ((s.regs .rdx).toInt * 2 ^ 64 + (s.regs .rax).toNat)
      (s.regs r).toInt
    return s.pair m q
  | set c =>
    match s.flags with
    | none => .error .openFlags
    | some f =>
      let byte : BitVec 8 := if f.holds c then 1 else 0
      .ok (s.put .rax ((s.regs .rax).extractLsb' 8 56 ++ byte))
  | movzx => .ok (s.put .rax (((s.regs .rax).setWidth 8).setWidth 64))

def run (code : List Instr) (s : State) : Except Trap State := code.foldlM Instr.exec s

/-! ## Texts -/

def Reg.ofName? : String → Option Reg
  | "rax" => some rax | "rcx" => some rcx | "rdx" => some rdx
  | _ => none

def Instr.ofWords? (mnemonic : String) (operands : List String) : Option Instr :=
  match mnemonic, operands with
  | "push", [r] => (Reg.ofName? r).map push
  | "pop", [r] => (Reg.ofName? r).map pop
  | "neg", [r] => (Reg.ofName? r).map neg
  | "inc", [r] => (Reg.ofName? r).map inc
  | "dec", [r] => (Reg.ofName? r).map dec
  | "add", [r, r'] => return add (← Reg.ofName? r) (← Reg.ofName? r')
  | "sub", [r, r'] => return sub (← Reg.ofName? r) (← Reg.ofName? r')
  | "cmp", [r, r'] => return cmp (← Reg.ofName? r) (← Reg.ofName? r')
  | "cdq", [] => some cdq
  | "mul", [r] => (Reg.ofName? r).map mul
  | "imul", [r] => (Reg.ofName? r).map imul
  | "div", [r] => (Reg.ofName? r).map div
  | "idiv", [r] => (Reg.ofName? r).map idiv
  | "sete", ["al"] => some (set .e)
  | "setne", ["al"] => some (set .ne)
  | "setl", ["al"] => some (set .l)
  | "setle", ["al"] => some (set .le)
  | "setg", ["al"] => some (set .g)
  | "setge", ["al"] => some (set .ge)
  | "movzx", ["rax", "al"] => some movzx
  | _, _ => none

/-- The instructions in a line: one, or none if it is empty but for a comment. -/
def readLine? (line : AsmLine) : Option (List Instr) :=
  if line.label = none ∧ line.mnemonic = [] then some []
  else if line.label = none then
    (Instr.ofWords? (.ofList line.mnemonic) (line.operands.map .ofList)).map ([·])
  else none

def read? (text : String) : Option (List Instr) :=
  (((Text.lines text.toList).map AsmLine.of).mapM readLine?).map List.flatten

def codeOf? (vm : Vm) (c : Cell) : Option (List Instr) := (assemble vm c).toOption.bind read?

/-- The text for a cell runs to its end, and leaves these words on the stack. -/
def Leaves (vm : Vm) (c : Cell) (s : State) (words : List Word) : Prop :=
  ∃ code, codeOf? vm c = some code ∧ (run code s).map State.stack = .ok words

theorem leaves_iff {vm : Vm} {c : Cell} (h : codeOf? vm c = some code) (s : State)
    (words : List Word) : Leaves vm c s words ↔ (run code s).map State.stack = .ok words := by
  constructor
  · rintro ⟨code', h', hrun⟩
    cases h.symm.trans h'
    exact hrun
  · exact fun hrun => ⟨code, h, hrun⟩

/-! ## Templates -/

/-- The text neither starts nor ends with a blank. -/
def Solid (cs : List Char) : Prop :=
  cs.head?.any (!Text.isBlank ·) = true ∧ cs.getLast?.any (!Text.isBlank ·) = true

instance (cs : List Char) : Decidable (Solid cs) := inferInstanceAs (Decidable (_ ∧ _))

theorem Solid.trim {cs : List Char} (h : Solid cs) : Text.trim cs = cs := by
  have hleft : ∀ {ds : List Char}, ds.head?.any (!Text.isBlank ·) = true →
      ds.dropWhile Text.isBlank = ds := by
    intro ds hd
    cases ds with
    | nil => rfl
    | cons d ds => exact List.dropWhile_cons_of_neg (by simpa using hd)
  have hright : cs.reverse.dropWhile Text.isBlank = cs.reverse :=
    hleft (by rw [List.head?_reverse]; exact h.2)
  rw [Text.trim, Text.trimRight, Text.trimLeft, hleft h.1, hright, List.reverse_reverse]

theorem Solid.append {cs ds : List Char} (hc : Solid cs) (hd : Solid ds) (between : List Char) :
    Solid (cs ++ between ++ ds) := by
  have hor : ∀ {o o' : Option Char}, o.any (!Text.isBlank ·) = true →
      (o.or o').any (!Text.isBlank ·) = true := by
    intro o o' h
    cases o with
    | none => cases h
    | some c => exact h
  constructor
  · rw [List.append_assoc, List.head?_append]
    exact hor hc.1
  · rw [List.getLast?_append]
    exact hor hd.2

structure Says (line : String) (i : Instr) : Prop where
  solid : Solid line.toList
  inLine : Inline line.toList
  read : readLine? (.of line.toList) = some [i]

instance (line : String) (i : Instr) : Decidable (Says line i) :=
  decidable_of_iff
    (Solid line.toList ∧ Inline line.toList ∧ readLine? (.of line.toList) = some [i])
    ⟨fun h => ⟨h.1, h.2.1, h.2.2⟩, fun h => ⟨h.solid, h.inLine, h.read⟩⟩

theorem Says.not_lineEnd (h : Says line i) : ∀ c ∈ line.toList, Text.isLineEnd c = false :=
  fun d hd => (h.inLine d hd).2

theorem solid_template (h : List.Forall₂ Says (line :: lines) (i :: code)) :
    Solid (templateLines (line :: lines)).toList := by
  induction lines generalizing line i code with
  | nil =>
    obtain ⟨hline, -⟩ := List.forall₂_cons.1 h
    simpa [templateLines] using hline.solid
  | cons m lines ih =>
    obtain ⟨hline, hlines⟩ := List.forall₂_cons.1 h
    cases hlines with
    | cons hm hlines =>
      rw [templateLines, String.intercalate_cons_cons, String.toList_append, String.toList_append]
      exact hline.solid.append (ih (.cons hm hlines)) _

theorem lines_indented {blanks line : List Char} (hblanks : Text.Blank blanks)
    (hends : ∀ c ∈ blanks ++ line, Text.isLineEnd c = false) (text : List Char) :
    (Text.lines (blanks ++ line ++ '\n' :: text)).map AsmLine.of =
      AsmLine.of line :: (Text.lines text).map AsmLine.of := by
  have hof : AsmLine.of (blanks ++ line) = AsmLine.of line := by
    simpa using AsmLine.of_blanks hblanks line Text.blank_nil
  rw [Text.lines, Text.linesFrom_line text [] hends, List.map_cons, List.reverse_nil,
    List.nil_append, hof, Text.lines]

theorem lines_template (h : List.Forall₂ Says (line :: lines) (i :: code)) {blanks : List Char}
    (hblanks : Text.Blank blanks) (hends : ∀ c ∈ blanks, Text.isLineEnd c = false) :
    (Text.lines (blanks ++ (templateLines (line :: lines)).toList ++ ['\n'])).map AsmLine.of =
      (line :: lines).map (AsmLine.of ·.toList) := by
  induction lines generalizing line i code blanks with
  | nil =>
    obtain ⟨hline, -⟩ := List.forall₂_cons.1 h
    rw [templateLines, String.intercalate_singleton,
      lines_indented hblanks (List.forall_mem_append.2 ⟨hends, hline.not_lineEnd⟩)]
    rfl
  | cons m lines ih =>
    obtain ⟨hline, hlines⟩ := List.forall₂_cons.1 h
    cases hlines with
    | cons hm hlines =>
      have hsplit : blanks ++ (templateLines (line :: m :: lines)).toList ++ ['\n'] =
          blanks ++ line.toList ++ '\n' ::
            (List.replicate 16 ' ' ++ (templateLines (m :: lines)).toList ++ ['\n']) := by
        rw [templateLines, String.intercalate_cons_cons]
        simp [templateLines]
      rw [hsplit, lines_indented hblanks (List.forall_mem_append.2 ⟨hends, hline.not_lineEnd⟩),
        ih (.cons hm hlines) (Text.blank_replicate 16) (fun d hd => by
          rw [List.eq_of_mem_replicate hd]
          rfl)]
      rfl

/-- **The text of a template is read line by line.** -/
theorem read?_commented {c : Cell} (hc : Inline c.inner.toList)
    (h : List.Forall₂ Says (line :: lines) (i :: code)) :
    read? (commented c (templateLines (line :: lines))) = some (i :: code) := by
  have hinline : Inline (";;; ".toList ++ c.inner.toList) := Inline.append (by decide) hc
  have hnote : readLine? (.of (";;; ".toList ++ c.inner.toList)) = some [] := by
    rw [AsmLine.of_of_not_mem hinline.colon_not_mem]
    exact congrArg readLine? (AsmLine.ofRest_append List.not_mem_nil (";; ".toList ++ c.inner.toList))
  have htext : (commented c (templateLines (line :: lines))).toList =
      [] ++ (";;; ".toList ++ c.inner.toList) ++
        '\n' :: ([] ++ (templateLines (line :: lines)).toList ++ ['\n']) := by
    simp [commented, (solid_template h).trim]
  have hread : ∀ {ls : List String} {is : List Instr}, List.Forall₂ Says ls is →
      (ls.map (AsmLine.of ·.toList)).mapM readLine? = some (is.map ([·])) := by
    intro ls is hsays
    induction hsays with
    | nil => rfl
    | cons hline hlines ih => simp [hline.read, ih]
  generalize ";;; ".toList ++ c.inner.toList = note at hinline hnote htext
  rw [read?, htext, lines_indented Text.blank_nil (fun d hd => (hinline d hd).2),
    lines_template h Text.blank_nil (List.forall_mem_nil _), List.mapM_cons, hnote, hread h]
  simp [← List.flatMap_def]

end ExprLang.X86
