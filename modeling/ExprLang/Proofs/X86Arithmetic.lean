/-
  What the texts for arithmetic compute.

  Both machines get the same text for an operator, but for the mnemonics of products and quotients:
  on the CMa they are computed without signs, on the MaMa with signs.  For a product that makes no
  difference in the lower half.  For a quotient the dividend is a pair of registers, and its upper
  one should repeat the sign of the lower one.  But `cdq` goes by bit 31, the sign of half a
  register, and repeats it in half a register (`dividend`).

  * `leaves_unary`, `leaves_sum`, `leaves_product`, `leaves_comparison`: the texts compute what the
    operators say, modulo `2 ^ 64`;
  * `unsignedFinds_iff`, `signedFinds_iff`: for which words the quotient is right;
  * `arithmetic_computes`: all of it together.
-/
import ExprLang.Proofs.X86Machine

namespace ExprLang.X86

open CMa (UnaryOp BinaryOp)

variable {a b : Word} {m k : Nat} {i : Instr} {op : BinaryOp}

/-! ## The dividend -/

/-- The number in `rdx` and `rax` after `cdq`. -/
def dividend (a : Word) : Nat := (signHalf a).toNat * 2 ^ 64 + a.toNat

theorem getLsbD_31_iff (a : Word) : a.getLsbD 31 = true ↔ a.toNat / 2 ^ 31 % 2 = 1 := by
  rw [BitVec.getLsbD, Nat.testBit_eq_decide_div_mod_eq, decide_eq_true_eq]

theorem signHalf_toNat (a : Word) :
    (signHalf a).toNat = if a.getLsbD 31 = true then 2 ^ 32 - 1 else 0 := by
  have hmsb : (a.setWidth 32).msb = a.getLsbD 31 := by
    simp [BitVec.msb_eq_getLsbD_last]
  rw [signHalf, hmsb]
  split <;> rfl

theorem dividend_of_clear (h : a.getLsbD 31 = false) : dividend a = a.toNat := by
  rw [dividend, signHalf_toNat, h]
  simp

theorem dividend_of_set (h : a.getLsbD 31 = true) : dividend a = 2 ^ 96 - 2 ^ 64 + a.toNat := by
  rw [dividend, signHalf_toNat, if_pos h]
  omega

/-- A word is a number and counts for it, or it is what a number lacks to `2 ^ 64` and counts for
    that number with a minus sign. -/
theorem sign_cases (w : Word) :
    (∃ m : Nat, m < 2 ^ 63 ∧ w.toNat = m ∧ w.toInt = m) ∨
    ∃ m : Nat, 0 < m ∧ m ≤ 2 ^ 63 ∧ w.toNat = 2 ^ 64 - m ∧ w.toInt = -m := by
  have hlt := w.isLt
  rw [BitVec.toInt_eq_toNat_cond]
  split
  · exact .inl ⟨w.toNat, by omega, rfl, rfl⟩
  · exact .inr ⟨2 ^ 64 - w.toNat, by omega, by omega, by omega, by omega⟩

/-! ## Quotients of a dividend that is too large -/

/-- The dividend is larger than it should be by more than the divisor. -/
theorem div_lt_of_large (hk : 0 < k) (hk' : k ≤ 2 ^ 63) : m / k < (2 ^ 96 - 2 ^ 64 + m) / k := by
  calc m / k < m / k + 1 := Nat.lt_succ_self _
    _ = (m + k) / k := (Nat.add_div_right m hk).symm
    _ ≤ (2 ^ 96 - 2 ^ 64 + m) / k := Nat.div_le_div_right (by omega)

/-- Divided by a negative word that is taken for a positive one. -/
theorem div_bounds_of_large {n d : Nat} (hn : 2 ^ 96 - 2 ^ 64 ≤ n) (hn' : n < 2 ^ 96)
    (hd : 2 ^ 63 ≤ d) (hd' : d < 2 ^ 64) : 0 < n / d ∧ n / d < 2 ^ 33 := by
  constructor
  · exact Nat.div_pos (by omega) (by omega)
  · exact (Nat.div_lt_iff_lt_mul (by omega)).2 (by omega)

/-- The quotient of `-m` by `k` can only come out right if the lower half of `m` is clear. -/
theorem dvd_of_large_neg_pos (hm : m ≤ 2 ^ 63) (hk : 0 < k) (hlt : (2 ^ 96 - m) / k < 2 ^ 64)
    (heq : (2 ^ 96 - m) / k + m / k = 2 ^ 64) : 2 ^ 32 ∣ m := by
  have hmul := Nat.div_mul_le_self m k
  have hmul' := Nat.div_mul_le_self (2 ^ 96 - m) k
  have hsum : 2 ^ 64 * k = (2 ^ 96 - m) / k * k + m / k * k := by rw [← heq, Nat.add_mul]
  have hge : 2 ^ 96 - m < 2 ^ 64 * k := (Nat.div_lt_iff_lt_mul hk).1 hlt
  obtain rfl : k = 2 ^ 32 := by omega
  omega

theorem dvd_of_large_neg_neg (hm : m ≤ 2 ^ 63) (hk : 0 < k) (hk' : k ≤ 2 ^ 63)
    (heq : (2 ^ 96 - m) / (2 ^ 64 - k) = m / k) : 2 ^ 32 ∣ m := by
  have hmul := Nat.div_mul_le_self m k
  have hlt := Nat.lt_div_mul_add (a := m) hk
  have hmul' := Nat.div_mul_le_self (2 ^ 96 - m) (2 ^ 64 - k)
  have hlt' := Nat.lt_div_mul_add (a := 2 ^ 96 - m) (b := 2 ^ 64 - k) (by omega)
  rw [heq] at hmul' hlt'
  generalize m / k = t at *
  have hsum : t * (2 ^ 64 - k) + t * k = t * 2 ^ 64 := by
    rw [← Nat.mul_add, Nat.sub_add_cancel (by omega)]
  -- Both products are known up to less than one factor, and together they leave one quotient.
  obtain rfl : t = 2 ^ 32 := by omega
  omega

/-! ## Quotients without signs -/

/-- The quotient `q` is found without signs. -/
def UnsignedFinds (a b : Word) (q : Int) : Prop :=
  ∃ m, unsignedDivision (dividend a) b.toNat = .ok (.ofInt 64 q, m)

/-- The quotient is found if there is no overflow and it is the same word. -/
theorem unsignedFinds_iff_eq {q : Int} (hb : 0 < b.toNat) (hq : -2 ^ 63 ≤ q) (hq' : q < 2 ^ 63) :
    UnsignedFinds a b q ↔ ∃ n : Nat, n = dividend a / b.toNat ∧ n < 2 ^ 64 ∧
      ((n : Int) = q ∨ (n : Int) = q + 2 ^ 64) := by
  have hword : ∀ n : Nat, n < 2 ^ 64 → (BitVec.ofNat 64 n = BitVec.ofInt 64 q ↔
      (n : Int) = q ∨ (n : Int) = q + 2 ^ 64) := by
    intro n hn
    rw [← BitVec.toNat_inj, BitVec.toNat_ofNat, BitVec.toNat_ofInt]
    omega
  rw [UnsignedFinds, unsignedDivision]
  generalize dividend a / b.toNat = n
  by_cases hn : n < 2 ^ 64
  · rw [if_neg (by omega)]
    simp only [Except.ok.injEq, Prod.mk.injEq, exists_and_left, exists_eq', and_true, hword n hn]
    exact ⟨fun h => ⟨n, rfl, hn, h⟩, fun ⟨_, hn', _, h⟩ => hn' ▸ h⟩
  · rw [if_pos (by omega)]
    constructor
    · rintro ⟨m, hm⟩
      cases hm
    · rintro ⟨_, rfl, hlt, -⟩
      exact absurd hlt hn

/-- Where bit 31 is set, the quotient is never right. -/
theorem not_unsignedFinds_of_set (hb : 0 < b.toNat) (hset : a.getLsbD 31 = true)
    (hq : -2 ^ 63 ≤ a.toInt.tdiv b.toInt) (hq' : a.toInt.tdiv b.toInt < 2 ^ 63) :
    ¬ UnsignedFinds a b (a.toInt.tdiv b.toInt) := by
  have hbit := (getLsbD_31_iff a).1 hset
  rw [unsignedFinds_iff_eq hb hq hq', dividend_of_set hset]
  rintro ⟨n, hn, hlt, heq⟩
  rcases sign_cases a with ⟨m, hm, ha, ha'⟩ | ⟨m, hm, hm', ha, ha'⟩ <;>
    rcases sign_cases b with ⟨k, hk, hkb, hkb'⟩ | ⟨k, hk, hk', hkb, hkb'⟩
  · have hlarge := div_lt_of_large (m := m) (k := k) (by omega) (by omega)
    rw [ha', hkb', ← Int.ofNat_tdiv] at heq
    rw [ha, hkb] at hn
    generalize m / k = t at *
    omega
  · have hbounds := div_bounds_of_large (n := 2 ^ 96 - 2 ^ 64 + a.toNat) (d := b.toNat) (by omega)
      (by omega) (by omega) (by omega)
    have hle := Nat.div_le_self m k
    rw [ha', hkb', Int.tdiv_neg, ← Int.ofNat_tdiv] at heq
    generalize m / k = t at *
    omega
  · have hle := Nat.div_le_self m k
    have hpos : 0 < (2 ^ 96 - m) / k := Nat.div_pos (by omega) (by omega)
    have hsum : 2 ^ 96 - 2 ^ 64 + (2 ^ 64 - m) = 2 ^ 96 - m := by omega
    rw [ha', hkb', Int.neg_tdiv, ← Int.ofNat_tdiv] at heq
    rw [ha, hkb, hsum] at hn
    have hround : (2 ^ 96 - m) / k + m / k = 2 ^ 64 := by
      generalize m / k = t at *
      omega
    have hdvd := dvd_of_large_neg_pos hm' (by omega) (hn ▸ hlt) hround
    omega
  · have hle := Nat.div_le_self m k
    have hsum : 2 ^ 96 - 2 ^ 64 + (2 ^ 64 - m) = 2 ^ 96 - m := by omega
    rw [ha', hkb', Int.neg_tdiv, Int.tdiv_neg, neg_neg, ← Int.ofNat_tdiv] at heq
    rw [ha, hkb, hsum] at hn
    have hround : (2 ^ 96 - m) / (2 ^ 64 - k) = m / k := by
      generalize m / k = t at *
      omega
    have hdvd := dvd_of_large_neg_neg hm' hk hk' hround
    omega

/-- **Quotients without signs are right** if bit 31 is clear and both words are positive, or if they
    happen to be: the quotient is zero, or one, or the dividend itself. -/
theorem unsignedFinds_iff (hb : 0 < b.toNat) (hq : -2 ^ 63 ≤ a.toInt.tdiv b.toInt)
    (hq' : a.toInt.tdiv b.toInt < 2 ^ 63) :
    UnsignedFinds a b (a.toInt.tdiv b.toInt) ↔ a.getLsbD 31 = false ∧
      (0 ≤ a.toInt ∧ (0 < b.toInt ∨ a.toInt < -b.toInt) ∨ b.toInt = 1 ∨ a.toInt = b.toInt) := by
  by_cases hset : a.getLsbD 31 = true
  · refine iff_of_false (not_unsignedFinds_of_set hb hset hq hq') ?_
    simp [hset]
  · have hclear : a.getLsbD 31 = false := by simpa using hset
    rw [unsignedFinds_iff_eq hb hq hq', dividend_of_clear hclear]
    simp only [hclear, true_and, exists_eq_left]
    rcases sign_cases a with ⟨m, hm, ha, ha'⟩ | ⟨m, hm, hm', ha, ha'⟩ <;>
      rcases sign_cases b with ⟨k, hk, hkb, hkb'⟩ | ⟨k, hk, hk', hkb, hkb'⟩
    · rw [ha', hkb', ← Int.ofNat_tdiv, ha, hkb]
      have hle := Nat.div_le_self m k
      omega
    · rw [ha', hkb', Int.tdiv_neg, ← Int.ofNat_tdiv, ha, hkb]
      have hzero : m / (2 ^ 64 - k) = 0 := Nat.div_eq_of_lt (by omega)
      have hle := Nat.div_le_self m k
      have hlt : m / k = 0 ↔ m < k := Nat.div_eq_zero_iff_lt hk
      omega
    · rw [ha', hkb', Int.neg_tdiv, ← Int.ofNat_tdiv, ha, hkb]
      by_cases hone : k = 1
      · subst hone
        simp only [Nat.div_one]
        omega
      · have hle : (2 ^ 64 - m) / k ≤ (2 ^ 64 - m) / 2 := Nat.div_le_div_left (by omega) (by omega)
        have hle' : m / k ≤ m / 2 := Nat.div_le_div_left (by omega) (by omega)
        have hpos : 0 < (2 ^ 64 - m) / k := Nat.div_pos (by omega) (by omega)
        generalize m / k = t at *
        omega
    · rw [ha', hkb', Int.neg_tdiv, Int.tdiv_neg, neg_neg, ← Int.ofNat_tdiv, ha, hkb]
      rcases lt_trichotomy m k with hlt | rfl | hgt
      · have hzero : m / k = 0 := Nat.div_eq_of_lt hlt
        have hpos : 0 < (2 ^ 64 - m) / (2 ^ 64 - k) := Nat.div_pos (by omega) (by omega)
        omega
      · rw [Nat.div_self (by omega), Nat.div_self (by omega)]
        omega
      · have hzero : (2 ^ 64 - m) / (2 ^ 64 - k) = 0 := Nat.div_eq_of_lt (by omega)
        have hpos : 0 < m / k := Nat.div_pos (by omega) hk
        omega

/-! ## Quotients with signs -/

/-- The quotient `q` is found with signs. -/
def SignedFinds (a b : Word) (q : Int) : Prop :=
  ∃ m, signedDivision ((signHalf a).toInt * 2 ^ 64 + a.toNat) b.toInt = .ok (.ofInt 64 q, m)

/-- The upper register is never negative. -/
theorem signHalf_toInt (a : Word) : (signHalf a).toInt = (signHalf a).toNat := by
  have hlt : (signHalf a).toNat < 2 ^ 32 := by
    rw [signHalf_toNat]
    split <;> omega
  rw [BitVec.toInt_eq_toNat_cond, if_pos (by omega)]

theorem signedFinds_iff_eq {q : Int} (hb : b.toInt ≠ 0) (hq : -2 ^ 63 ≤ q) (hq' : q < 2 ^ 63) :
    SignedFinds a b q ↔ (dividend a : Int).tdiv b.toInt = q := by
  have hdividend : (signHalf a).toInt * 2 ^ 64 + a.toNat = (dividend a : Int) := by
    rw [signHalf_toInt, dividend]
    push_cast
    rfl
  rw [SignedFinds, signedDivision, hdividend]
  generalize (dividend a : Int).tdiv b.toInt = n
  by_cases hn : n < -2 ^ 63 ∨ 2 ^ 63 ≤ n
  · rw [if_pos (.inr hn)]
    constructor
    · rintro ⟨m, hm⟩
      cases hm
    · omega
  · have hword : BitVec.ofInt 64 n = BitVec.ofInt 64 q ↔ n = q := by
      rw [← BitVec.toInt_inj, BitVec.toInt_ofInt_eq_self (by omega) (by omega) (by omega),
        BitVec.toInt_ofInt_eq_self (by omega) (by omega) (by omega)]
    rw [if_neg (by omega)]
    simp only [Except.ok.injEq, Prod.mk.injEq, exists_and_left, exists_eq', and_true, hword]

/-- A positive dividend in place of a negative one gives a quotient of the other sign. -/
theorem tdiv_ne_of_signs {n : Nat} (hn : 2 ^ 63 ≤ n) (m : Nat) (hb : b.toInt ≠ 0) :
    (n : Int).tdiv b.toInt ≠ (-(m : Int)).tdiv b.toInt := by
  rcases sign_cases b with ⟨k, hk, -, hb'⟩ | ⟨k, hk, hk', -, hb'⟩
  · have hpos : 0 < n / k := Nat.div_pos (by omega) (by omega)
    rw [hb', Int.neg_tdiv, ← Int.ofNat_tdiv, ← Int.ofNat_tdiv]
    generalize m / k = t
    omega
  · have hpos : 0 < n / k := Nat.div_pos (by omega) hk
    rw [hb', Int.neg_tdiv, Int.tdiv_neg, Int.tdiv_neg, neg_neg, ← Int.ofNat_tdiv,
      ← Int.ofNat_tdiv]
    generalize m / k = t
    omega

/-- A dividend that is too large gives a quotient that is too far from zero. -/
theorem tdiv_ne_of_large (m : Nat) (hb : b.toInt ≠ 0) :
    ((2 ^ 96 - 2 ^ 64 + m : Nat) : Int).tdiv b.toInt ≠ (m : Int).tdiv b.toInt := by
  rcases sign_cases b with ⟨k, hk, -, hb'⟩ | ⟨k, hk, hk', -, hb'⟩
  · have hlarge := div_lt_of_large (m := m) (k := k) (by omega) (by omega)
    rw [hb', ← Int.ofNat_tdiv, ← Int.ofNat_tdiv]
    omega
  · have hlarge := div_lt_of_large (m := m) hk hk'
    rw [hb', Int.tdiv_neg, Int.tdiv_neg, ← Int.ofNat_tdiv, ← Int.ofNat_tdiv]
    omega

/-- **Quotients with signs are right** exactly if the dividend is not negative and bit 31 is
    clear. -/
theorem signedFinds_iff (hb : b.toInt ≠ 0) (hq : -2 ^ 63 ≤ a.toInt.tdiv b.toInt)
    (hq' : a.toInt.tdiv b.toInt < 2 ^ 63) :
    SignedFinds a b (a.toInt.tdiv b.toInt) ↔ a.getLsbD 31 = false ∧ 0 ≤ a.toInt := by
  rw [signedFinds_iff_eq hb hq hq']
  by_cases hset : a.getLsbD 31 = true
  · refine iff_of_false ?_ (by simp [hset])
    rw [dividend_of_set hset]
    rcases sign_cases a with ⟨m, hm, ha, ha'⟩ | ⟨m, hm, hm', ha, ha'⟩
    · rw [ha, ha']
      exact tdiv_ne_of_large m hb
    · rw [ha']
      exact tdiv_ne_of_signs (by omega) m hb
  · have hclear : a.getLsbD 31 = false := by simpa using hset
    rw [dividend_of_clear hclear]
    rcases sign_cases a with ⟨m, hm, ha, ha'⟩ | ⟨m, hm, hm', ha, ha'⟩
    · refine iff_of_true ?_ ⟨hclear, by omega⟩
      rw [ha, ha']
    · refine iff_of_false ?_ (by omega)
      rw [ha']
      exact tdiv_ne_of_signs (by omega) m hb

/-! ## The texts -/

def condOf? : BinaryOp → Option Cond
  | .le => some .l
  | .gr => some .g
  | .leq => some .le
  | .geq => some .ge
  | .eq => some .e
  | .neq => some .ne
  | _ => none

/-- What is done to `rax` by an operator on one word. -/
def unaryInstr : UnaryOp → Instr
  | .neg => .neg .rax
  | .inc => .inc .rax
  | .dec => .dec .rax

/-- What is done to `rax` and `rcx` for a sum or a difference. -/
def sumInstr? : BinaryOp → Option Instr
  | .add => some (.add .rax .rcx)
  | .sub => some (.sub .rax .rcx)
  | _ => none

/-- What is done to `rdx`, `rax` and `rcx` for a product or a quotient: on the CMa it is computed
    without signs. -/
def productInstr? : Vm → BinaryOp → Option Instr
  | .cma, .mul => some (.mul .rcx)
  | .cma, .div => some (.div .rcx)
  | .mama, .mul => some (.imul .rcx)
  | .mama, .div => some (.idiv .rcx)
  | _, _ => none

/-- How that is written. -/
def productName : Vm → BinaryOp → String
  | .cma, op => op.mnemonic
  | .mama, op => operatorMnemonic op.mnemonic

/-- What the lines of the templates say. -/
structure LineFacts : Prop where
  popRax : Says "pop   rax" (.pop .rax)
  popRcx : Says "pop   rcx" (.pop .rcx)
  pushRax : Says "push  rax" (.push .rax)
  /-- The last line of a comparison has fewer blanks. -/
  pushRax' : Says "push rax" (.push .rax)
  cdq : Says "cdq" .cdq
  cmp : Says "cmp   rax, rcx" (.cmp .rax .rcx)
  movzx : Says "movzx rax, al" .movzx
  unary : ∀ op : UnaryOp, Says s!"{mnemonic5 op.mnemonic} rax" (unaryInstr op)
  sum : ∀ {op : BinaryOp} {i : Instr}, sumInstr? op = some i →
    Says s!"{mnemonic5 op.mnemonic} rax, rcx" i
  product : ∀ {vm : Vm} {op : BinaryOp} {i : Instr}, productInstr? vm op = some i →
    Says s!"{mnemonic5 (productName vm op)} rcx" i
  set : ∀ {op : BinaryOp} {c : Cond}, condOf? op = some c →
    Says s!"{mnemonic5 (operatorMnemonic op.mnemonic)} al" (.set c)

theorem lineFacts : LineFacts where
  popRax := by decide +kernel
  popRcx := by decide +kernel
  pushRax := by decide +kernel
  pushRax' := by decide +kernel
  cdq := by decide +kernel
  cmp := by decide +kernel
  movzx := by decide +kernel
  unary op := by cases op <;> decide +kernel
  sum {op _} h := by cases op <;> cases h <;> decide +kernel
  product {vm op _} h := by cases vm <;> cases op <;> cases h <;> decide +kernel
  set {op _} h := by cases op <;> cases h <;> decide +kernel

theorem codeOf?_eq {vm : Vm} {m : String} {line : String} {lines : List String} {code : List Instr}
    (hm : Inline m.toList)
    (htext : assemble vm (.tuple [.text m]) =
      .ok (commented (.tuple [.text m]) (templateLines (line :: lines))))
    (h : List.Forall₂ Says (line :: lines) (i :: code)) :
    codeOf? vm (.tuple [.text m]) = some (i :: code) := by
  rw [codeOf?, htext, Except.toOption, Option.bind_some,
    read?_commented (Cell.inline_instr hm (List.forall_mem_nil _)) h]

theorem codeOf?_unary (vm : Vm) (op : UnaryOp) : codeOf? vm (.tuple [.text op.mnemonic]) =
    some [.pop .rax, unaryInstr op, .push .rax] := by
  have htext : assemble vm (.tuple [.text op.mnemonic]) =
      .ok (commented (.tuple [.text op.mnemonic]) (unaryText op.mnemonic)) := by
    cases vm <;> cases op <;> rfl
  rw [unaryText] at htext
  have lines := lineFacts
  exact codeOf?_eq (CMa.inline_mnemonic (.unary op)) htext
    (.cons lines.popRax (.cons (lines.unary op) (.cons lines.pushRax .nil)))

theorem codeOf?_sum (vm : Vm) (h : sumInstr? op = some i) :
    codeOf? vm (.tuple [.text op.mnemonic]) = some [.pop .rcx, .pop .rax, i, .push .rax] := by
  have htext : assemble vm (.tuple [.text op.mnemonic]) =
      .ok (commented (.tuple [.text op.mnemonic]) (sumText op.mnemonic)) := by
    cases vm <;> cases op <;> cases h <;> rfl
  rw [sumText] at htext
  have lines := lineFacts
  exact codeOf?_eq (CMa.inline_mnemonic (.binary op)) htext (.cons lines.popRcx
    (.cons lines.popRax (.cons (lines.sum h) (.cons lines.pushRax .nil))))

theorem codeOf?_product (vm : Vm) (h : productInstr? vm op = some i) :
    codeOf? vm (.tuple [.text op.mnemonic]) =
      some [.pop .rcx, .pop .rax, .cdq, i, .push .rax] := by
  have htext : assemble vm (.tuple [.text op.mnemonic]) =
      .ok (commented (.tuple [.text op.mnemonic]) (productText (productName vm op))) := by
    cases vm <;> cases op <;> cases h <;> rfl
  rw [productText] at htext
  have lines := lineFacts
  exact codeOf?_eq (CMa.inline_mnemonic (.binary op)) htext (.cons lines.popRcx
    (.cons lines.popRax (.cons lines.cdq (.cons (lines.product h)
      (.cons lines.pushRax .nil)))))

theorem codeOf?_comparison (vm : Vm) {c : Cond} (h : condOf? op = some c) :
    codeOf? vm (.tuple [.text op.mnemonic]) =
      some [.pop .rcx, .pop .rax, .cmp .rax .rcx, .set c, .movzx, .push .rax] := by
  have htext : assemble vm (.tuple [.text op.mnemonic]) =
      .ok (commented (.tuple [.text op.mnemonic]) (comparisonText op.mnemonic)) := by
    cases vm <;> cases op <;> cases h <;> rfl
  rw [comparisonText] at htext
  have lines := lineFacts
  exact codeOf?_eq (CMa.inline_mnemonic (.binary op)) htext (.cons lines.popRcx
    (.cons lines.popRax (.cons lines.cmp (.cons (lines.set h)
      (.cons lines.movzx (.cons lines.pushRax' .nil))))))

/-! ## Runs -/

theorem ofInt_sub_toInt (a b : Word) : BitVec.ofInt 64 (a.toInt - b.toInt) = a - b := by
  rw [Int.sub_eq_add_neg, BitVec.ofInt_add, BitVec.ofInt_neg, BitVec.ofInt_toInt,
    BitVec.ofInt_toInt, ← BitVec.sub_eq_add_neg]

/-- A truth value in the lowest byte, and the rest cleared. -/
theorem setWidth_byte (w : BitVec 56) (p : Prop) [Decidable p] (f : Bool) (h : f = true ↔ p) :
    (((w ++ (if f then 1 else 0 : BitVec 8) : Word).setWidth 8).setWidth 64 : Word) =
      .ofInt 64 (truthWord p) := by
  have hbyte : ∀ byte : BitVec 8, (w ++ byte : Word).setWidth 8 = byte := fun byte =>
    BitVec.setWidth_append.trans (by simp)
  rw [hbyte, truthWord]
  by_cases hp : p
  · rw [if_pos (h.2 hp), if_pos hp]
    rfl
  · rw [if_neg (mt h.1 hp), if_neg hp]
    rfl

section
variable (vm : Vm) (s : State) (a b : Word) (rest : List Word)

theorem leaves_unary (op : UnaryOp) :
    Leaves vm (.tuple [.text op.mnemonic]) { s with stack := a :: rest }
      (.ofInt 64 (op.apply a.toInt) :: rest) := by
  rw [leaves_iff (codeOf?_unary vm op)]
  cases op with
  | neg =>
    rw [UnaryOp.apply, BitVec.ofInt_neg, BitVec.ofInt_toInt]
    rfl
  | inc =>
    rw [UnaryOp.apply, BitVec.ofInt_add, BitVec.ofInt_toInt]
    rfl
  | dec =>
    rw [UnaryOp.apply, ← BitVec.toInt_one (w := 64) (by decide), ofInt_sub_toInt]
    rfl

theorem leaves_sum {op : BinaryOp} {i : Instr} (h : sumInstr? op = some i) {w : Int}
    (hw : op.apply a.toInt b.toInt = some w) :
    Leaves vm (.tuple [.text op.mnemonic]) { s with stack := b :: a :: rest }
      (.ofInt 64 w :: rest) := by
  rw [leaves_iff (codeOf?_sum vm h)]
  cases op with
  | add =>
    cases h
    cases hw
    rw [BitVec.ofInt_add, BitVec.ofInt_toInt, BitVec.ofInt_toInt]
    rfl
  | sub =>
    cases h
    cases hw
    rw [ofInt_sub_toInt]
    rfl
  | _ => cases h

theorem leaves_product :
    Leaves vm (.tuple [.text BinaryOp.mul.mnemonic]) { s with stack := b :: a :: rest }
      (.ofInt 64 (a.toInt * b.toInt) :: rest) := by
  cases vm with
  | cma =>
    rw [leaves_iff (codeOf?_product .cma rfl), BitVec.ofInt_mul, BitVec.ofInt_toInt,
      BitVec.ofInt_toInt]
    have hmul : BitVec.ofNat 64 (a.toNat * b.toNat) = a * b := by
      rw [BitVec.ofNat_mul, BitVec.ofNat_toNat, BitVec.ofNat_toNat, BitVec.setWidth_eq,
        BitVec.setWidth_eq]
    rw [← hmul]
    rfl
  | mama =>
    rw [leaves_iff (codeOf?_product .mama rfl)]
    rfl

theorem leaves_comparison {op : BinaryOp} {c : Cond} (h : condOf? op = some c) {w : Int}
    (hw : op.apply a.toInt b.toInt = some w) :
    Leaves vm (.tuple [.text op.mnemonic]) { s with stack := b :: a :: rest }
      (.ofInt 64 w :: rest) := by
  rw [leaves_iff (codeOf?_comparison vm h)]
  have hholds := Flags.holds_iff a b c
  have hrun : (run [.pop .rcx, .pop .rax, .cmp .rax .rcx, .set c, .movzx, .push .rax]
      { s with stack := b :: a :: rest }).map State.stack =
      .ok ((((a.extractLsb' 8 56 ++ (if (Flags.ofSub a b).holds c then 1 else 0 : BitVec 8) :
        Word).setWidth 8).setWidth 64) :: rest) := rfl
  rw [hrun]
  cases op <;> cases h <;> cases hw <;>
    exact congrArg (fun w => Except.ok (w :: rest)) (setWidth_byte _ _ _ hholds)

/-- A division leaves its quotient if it finds one. -/
theorem run_division {i : Instr} {t : State} {r : Except Trap (Word × Word)}
    (h : i.exec t = r >>= fun qm => .ok (t.pair qm.2 qm.1)) (w : Word) :
    (run [i, .push .rax] t).map State.stack = .ok (w :: t.stack) ↔ ∃ m, r = .ok (w, m) := by
  rw [run, List.foldlM_cons, h]
  cases r with
  | error e =>
    refine iff_of_false (fun h => ?_) (fun ⟨m, h⟩ => ?_) <;> cases h
  | ok qm =>
    have hstack : (run [.push .rax] (t.pair qm.2 qm.1)).map State.stack =
        .ok (qm.1 :: t.stack) := rfl
    change (run [.push .rax] (t.pair qm.2 qm.1)).map State.stack = _ ↔ _
    rw [hstack, Except.ok.injEq, List.cons.injEq, and_iff_left rfl]
    simp only [Except.ok.injEq, Prod.ext_iff, exists_and_left, exists_eq', and_true]

/-- The quotient `q` is found by the machine's division. -/
def Finds : Vm → Word → Word → Int → Prop
  | .cma => UnsignedFinds
  | .mama => SignedFinds

theorem leaves_quotient_iff (q : Int) :
    Leaves vm (.tuple [.text BinaryOp.div.mnemonic]) { s with stack := b :: a :: rest }
      (.ofInt 64 q :: rest) ↔ Finds vm a b q := by
  -- The state after the sign has been extended.
  let t : State := { (((s.put .rcx b).put .rax a).put .rdx (signHalf a)) with stack := rest }
  cases vm with
  | cma =>
    rw [leaves_iff (codeOf?_product .cma rfl)]
    exact run_division (i := .div .rcx) (t := t) rfl _
  | mama =>
    rw [leaves_iff (codeOf?_product .mama rfl)]
    exact run_division (i := .idiv .rcx) (t := t) rfl _

end

/-! ## Arithmetic -/

/-- The words whose quotient is right.  Bit 31 of the dividend must be clear.  With signs, the
    dividend must not be negative either.  Without signs, a negative dividend goes well with the
    divisors one and itself only, and a negative divisor also with dividends of smaller size. -/
def DivisionRight : Vm → Word → Word → Prop
  | .cma, a, b => a.getLsbD 31 = false ∧
    (0 ≤ a.toInt ∧ (0 < b.toInt ∨ a.toInt < -b.toInt) ∨ b.toInt = 1 ∨ a.toInt = b.toInt)
  | .mama, a, _ => a.getLsbD 31 = false ∧ 0 ≤ a.toInt

theorem finds_iff (vm : Vm) (hb : b.toInt ≠ 0) (hq : -2 ^ 63 ≤ a.toInt.tdiv b.toInt)
    (hq' : a.toInt.tdiv b.toInt < 2 ^ 63) :
    Finds vm a b (a.toInt.tdiv b.toInt) ↔ DivisionRight vm a b := by
  cases vm with
  | cma =>
    have hpos : 0 < b.toNat := by
      rcases sign_cases b with ⟨k, -, hk, hk'⟩ | ⟨k, hk, hk', hk'', -⟩ <;> omega
    exact unsignedFinds_iff hpos hq hq'
  | mama => exact signedFinds_iff hb hq hq'

/-- **Arithmetic on words.**  The texts of both machines for the operators on one word, and for all
    operators on two words but one, leave the result modulo `2 ^ 64`, where comparisons go by the
    signed order.  The text for a quotient that is not by zero and can be represented leaves it,
    cut off towards zero, for some words only. -/
theorem arithmetic_computes (vm : Vm) (s : State) (a b : Word) (rest : List Word) :
    (∀ op : UnaryOp, Leaves vm (.tuple [.text op.mnemonic]) { s with stack := a :: rest }
      (.ofInt 64 (op.apply a.toInt) :: rest)) ∧
    (∀ (op : BinaryOp) (w : Int), op ≠ .div → op.apply a.toInt b.toInt = some w →
      Leaves vm (.tuple [.text op.mnemonic]) { s with stack := b :: a :: rest }
        (.ofInt 64 w :: rest)) ∧
    ∀ q : Int, BinaryOp.div.apply a.toInt b.toInt = some q → -2 ^ 63 ≤ q → q < 2 ^ 63 →
      (Leaves vm (.tuple [.text BinaryOp.div.mnemonic]) { s with stack := b :: a :: rest }
        (.ofInt 64 q :: rest) ↔ DivisionRight vm a b) := by
  refine ⟨leaves_unary vm s a rest, fun op w hop hw => ?_, fun q hq hlow hhigh => ?_⟩
  · cases op with
    | add | sub => exact leaves_sum vm s a b rest rfl hw
    | mul =>
      cases hw
      exact leaves_product vm s a b rest
    | div => exact absurd rfl hop
    | _ => exact leaves_comparison vm s a b rest rfl hw
  · have hb : b.toInt ≠ 0 := by
      intro h
      rw [BinaryOp.apply, if_pos h] at hq
      cases hq
    rw [BinaryOp.apply, if_neg hb, Option.some.injEq] at hq
    subst hq
    rw [leaves_quotient_iff, finds_iff vm hb hlow hhigh]

/-- Minus four divided by two is not minus two, on either machine, but four divided by two is two,
    and two minus four is minus two. -/
theorem arithmetic_computes_four_and_two :
    ¬ Leaves .cma (.tuple [.text "div"]) ⟨fun _ => 0, none, [2, -4]⟩ [-2] ∧
    ¬ Leaves .mama (.tuple [.text "div"]) ⟨fun _ => 0, none, [2, -4]⟩ [-2] ∧
    Leaves .mama (.tuple [.text "div"]) ⟨fun _ => 0, none, [2, 4]⟩ [2] ∧
    Leaves .cma (.tuple [.text "sub"]) ⟨fun _ => 0, none, [4, 2]⟩ [-2] := by
  refine ⟨fun h => ?_, fun h => ?_, ?_, ?_⟩
  · exact absurd (((arithmetic_computes .cma ⟨fun _ => 0, none, []⟩ (-4) 2 []).2.2 (-2) rfl
      (by decide) (by decide)).1 h).1 (by decide)
  · exact absurd (((arithmetic_computes .mama ⟨fun _ => 0, none, []⟩ (-4) 2 []).2.2 (-2) rfl
      (by decide) (by decide)).1 h).1 (by decide)
  · exact ((arithmetic_computes .mama ⟨fun _ => 0, none, []⟩ 4 2 []).2.2 2 rfl
      (by decide) (by decide)).2 ⟨by decide, by decide⟩
  · exact (arithmetic_computes .cma ⟨fun _ => 0, none, []⟩ 2 4 []).2.1 .sub (-2) (by decide) rfl

end ExprLang.X86
