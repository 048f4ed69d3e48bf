/-
  How often the code of a counting loop runs its body.

  The counter of a loop is taken down by one before every round and only compared with zero, so what
  a negative counter does depends on the words.  They are numbers modulo `M` (`stepIn`).

  * `Round` is one execution of the body;
  * `rounds? M n` says how many rounds a counter `n` makes, if it ever comes to zero;
  * `Evaluations` are those of a body by the evaluator (`exec_loop_iff`);
  * `loop_runs_rounds`: the code makes exactly these rounds, so that it agrees with the evaluator on
    the counters that are not negative, and on no others.
-/
import Mathlib
import ExprLang.Proofs.CMaMeaning
import ExprLang.Proofs.Runs

namespace ExprLang

namespace CMa

variable {M : Nat} {P ca : List Instr} {A : Int → Prop} {m m₀ m₁ m₂ m' : State} {v last k : Int}
  {lo en : String}

/-! ## Counters -/

/-- How many rounds a counter makes: it is taken down by one modulo `M` until it is zero.  A
    negative one without bounds never is. -/
def rounds? (M : Nat) (n : Int) : Option Nat := (n % M).toNat?

theorem rounds?_eq_some {r : Nat} : rounds? M k = some r ↔ k % M = r := Int.mem_toNat?

theorem rounds?_eq_none : rounds? M k = none ↔ k % M < 0 := by
  constructor
  · intro h
    by_contra hpos
    have hsome := rounds?_eq_some.2 (Int.toNat_of_nonneg (Int.not_lt.1 hpos)).symm
    cases h.symm.trans hsome
  · intro h
    cases hr : rounds? M k with
    | none => rfl
    | some r => have hmod := rounds?_eq_some.1 hr; omega

theorem eq_zero_of_rounds? (hk : k.bmod M = k) (h : rounds? M k = some 0) : k = 0 := by
  rw [← hk, ← Int.emod_bmod, rounds?_eq_some.1 h]
  exact Int.zero_bmod

/-- A round takes the counter down, and one that never comes to zero goes on that way. -/
theorem rounds?_pred (hk : k.bmod M = k) (h0 : k ≠ 0) :
    rounds? M ((k - 1).bmod M) = (rounds? M k).map (· - 1) := by
  cases hr : rounds? M k with
  | none =>
    rw [Option.map_none, rounds?_eq_none] at *
    -- Modulo a number, nothing is negative.
    obtain rfl : M = 0 := by
      by_contra hM
      have hpos := Int.emod_nonneg k (Int.natCast_ne_zero.2 hM)
      omega
    simp only [Int.natCast_zero, Int.emod_zero, Int.bmod_zero] at hr ⊢
    omega
  | some r =>
    obtain _ | r := r
    · exact absurd (eq_zero_of_rounds? hk hr) h0
    rw [rounds?_eq_some] at hr
    have hsub : (k - 1) % M = (r : Int) % M := by
      rw [← Int.emod_sub_emod, hr, Int.natCast_succ, Int.add_sub_cancel]
    refine rounds?_eq_some.2 ?_
    rw [Int.bmod_emod, hsub]
    rcases Nat.eq_zero_or_pos M with rfl | hM
    · exact Int.emod_zero _
    · have hlt := Int.emod_lt_of_pos k (Int.natCast_pos.2 hM)
      exact Int.emod_eq_of_lt (by omega) (by omega)

/-- Only counters that are not negative make as many rounds as they say. -/
theorem rounds?_eq_max_iff (hk : k.bmod M = k) :
    rounds? M k = some (max k 0).toNat ↔ 0 ≤ k := by
  rw [rounds?_eq_some, Int.toNat_of_nonneg (Int.le_max_right k 0)]
  constructor
  · intro h
    by_contra hneg
    have hmod : k % M = 0 := by omega
    rw [← Int.emod_bmod, hmod, Int.zero_bmod] at hk
    omega
  · intro h
    have hmax : max k 0 = k := by omega
    rw [hmax]
    rcases Nat.eq_zero_or_pos M with rfl | hM
    · exact Int.emod_zero k
    · have hlt : k < (M + 1) / 2 := hk ▸ Int.bmod_lt hM
      exact Int.emod_eq_of_lt h (by omega)

/-! ## Rounds -/

/-- Code that stands where the machine is runs to its end and pushes a word; below, it changes only
    words at addresses of `A`. -/
structure Completes (M : Nat) (P : List Instr) (A : Int → Prop) (code : List Instr) (m : State)
    (v : Int) (m' : State) : Prop where
  runs : RunsIn M P m m'
  pc : m'.pc = m.pc + code.length
  pushes : Pushes A m v m'

/-- From the label of a loop to the same label again, the body is executed once and pushes `v`.  Six
    instructions stand before it, and two behind it. -/
structure Round (M : Nat) (P : List Instr) (A : Int → Prop) (body : List Instr) (m : State)
    (v : Int) (m' : State) : Prop where
  once : ∃ m₁ m₂, stepsIn M P 6 m = some m₁ ∧ m₁.pc = m.pc + 6 ∧ Completes M P A body m₁ v m₂ ∧
    stepsIn M P 2 m₂ = some m'
  pc : m'.pc = m.pc

/-- A number of rounds; `last` is the result before them, and `v` the one after them. -/
inductive Rounds (M : Nat) (P : List Instr) (A : Int → Prop) (body : List Instr) :
    Nat → Int → State → Int → State → Prop where
  | none (last : Int) (m : State) : Rounds M P A body 0 last m last m
  | more {r : Nat} {last w v : Int} {m m₁ m' : State} (h : Round M P A body m w m₁)
      (hs : Rounds M P A body r w m₁ v m') : Rounds M P A body (r + 1) last m v m'

/-- At the label of a loop, with the result so far and the counter over the stack of `m₀`. -/
structure AtLabel (M : Nat) (A : Int → Prop) (m₀ : State) (last k : Int) (m : State) : Prop where
  result : Pushes A m₀ last m.drop
  counter : m.top = k
  fits : Fits M m

theorem AtLabel.sp (h : AtLabel M A m₀ last k m) : m.sp = m₀.sp + 16 := by
  have hsp : m.sp - 8 = m₀.sp + 8 := h.result.sp
  omega

theorem AtLabel.counter_fits (h : AtLabel M A m₀ last k m) : k.bmod M = k :=
  h.counter ▸ h.fits m.sp

/-- Before the body, the counter takes the place of the result. -/
theorem AtLabel.enters (h : AtLabel M A m₀ last k m) (hk : k ≠ 0)
    (hp : Placed P m.pc (loopCode lo en ca)) :
    ∃ m₁, stepsIn M P 6 m = some m₁ ∧ m₁.pc = m.pc + 6 ∧ Pushes A m₀ ((k - 1).bmod M) m₁ := by
  rw [loopCode] at hp
  have htop : m.mem m.sp = k := h.counter
  have hsp := h.sp
  have hne : m.sp ≠ m.sp + 8 := by omega
  let twice := (m.next.push m.top).next
  let dropped := twice.drop.next
  let less := (dropped.drop.push ((k - 1).bmod M)).next
  let swapped := ((less.drop.drop.push less.top).push less.drop.top).next
  have hdropped : dropped.top = k := by simp [dropped, twice, State.top, hne, htop]
  have f₂ : Fits M twice := (h.fits.next.push h.fits.top).next
  have f₄ : Fits M less := (f₂.drop.next.drop.push Int.bmod_bmod).next
  have f₅ : Fits M swapped := ((f₄.drop.drop.push f₄.top).push f₄.drop.top).next
  have hdec : (dropped.drop.push (UnaryOp.dec.apply dropped.top)).next.wrap M = less := by
    show ((dropped.drop.push (dropped.top - 1)).wrap M).next = less
    rw [wrap_push, f₂.drop.next.drop.wrap, hdropped]
  have htwice : twice.top ≠ 0 := by simpa [twice, State.top, htop] using hk
  have htest : exec P twice (.jumpz (.text en)) = some dropped := by rw [exec, if_neg htwice]
  refine ⟨swapped.drop.next, ?_, rfl, ?_⟩
  · rw [stepsIn_fits hp.head rfl h.fits.next, stepsIn_fits hp.tail.head rfl f₂,
      stepsIn_fits hp.tail.tail.head htest f₂.drop.next,
      stepsIn_succ hp.tail.tail.tail.head rfl hdec,
      stepsIn_fits hp.tail.tail.tail.tail.head rfl f₅,
      stepsIn_fits hp.tail.tail.tail.tail.tail.head rfl f₅.drop.next]
    rfl
  · have hmem : ∀ a ≤ m₀.sp, swapped.mem a = m.mem a := fun a ha => by
      simp [swapped, less, dropped, twice, show a ≠ m.sp by omega, show a ≠ m.sp + 8 by omega,
        show a ≠ m.sp - 8 by omega]
    refine ⟨?_, h.result.fp, ?_, fun a ha hA => (hmem a ha).trans (h.result.keeps a ha hA)⟩
    · simp [swapped, less, dropped, twice]
      omega
    · have hne' : m.sp - 8 ≠ m.sp := by omega
      simp [swapped, less, dropped, twice, State.top, show m₀.sp + 8 = m.sp - 8 by omega, hne']

/-- Behind the body, its result is put below the counter. -/
theorem AtLabel.back {c : List Instr} {n : Nat} (h : Pushes A m₀ k m₁) (h' : Pushes A m₁ v m₂)
    (hA : ∀ a, A a → a ≤ m₀.sp) (hf : Fits M m₂)
    (hp : Placed P m₂.pc (.swap :: .jump (.text lo) :: c))
    (hl : target? Instr.name? P (.text lo) = some n) :
    ∃ m', stepsIn M P 2 m₂ = some m' ∧ m'.pc = n ∧ AtLabel M A m₀ v k m' := by
  have hnA : ¬ A (m₀.sp + 8) := fun ha => by have := hA _ ha; omega
  have hu := h.under h' hnA
  let swapped := ((m₂.drop.drop.push m₂.top).push m₂.drop.top).next
  have f₁ : Fits M swapped := ((hf.drop.drop.push hf.top).push hf.drop.top).next
  have hjump : exec P swapped (.jump (.text lo)) = some (swapped.jumpTo n) := by
    rw [exec, hl]
    rfl
  have hresult : Pushes A m₀ v (m₂.drop.drop.push v) := hu.after (.push A m₂.drop.drop v)
  refine ⟨swapped.jumpTo n, ?_, rfl, ?_, ?_, f₁.jumpTo n⟩
  · rw [stepsIn_fits hp.head rfl f₁, stepsIn_fits hp.tail.head hjump (f₁.jumpTo n)]
    rfl
  · show Pushes A m₀ v (swapped.drop.jumpTo n)
    have hswap := hresult.under (.push A (m₂.drop.drop.push v) k) hnA
    rw [← h'.top, ← hu.top] at hswap
    rw [← h'.top]
    exact hswap.jumpTo n
  · rw [← hu.top]
    simp [swapped, State.top]

/-- At zero, the loop ends with its result. -/
theorem AtLabel.leaves (h : AtLabel M A m₀ last 0 m) (hP : (labelsOf Instr.name? P).Nodup)
    (hp : Placed P m.pc (loopCode lo en ca)) :
    ∃ m', stepsIn M P 5 m = some m' ∧ m'.pc = m.pc + (loopCode lo en ca).length ∧
      Pushes A m₀ last m' := by
  rw [loopCode] at hp ⊢
  have hsp := h.sp
  obtain ⟨q, hq, hend⟩ : ∃ q, q = m.pc + ca.length + 8 ∧ Placed P q [.label (.text en), .pop] :=
    ⟨_, by omega, hp.tail.tail.tail.tail.tail.tail.right.tail.tail⟩
  let twice := (m.next.push m.top).next
  have f₂ : Fits M twice := (h.fits.next.push h.fits.top).next
  have htwice : twice.top = 0 := by simp [twice, State.top, ← h.counter]
  have htest : exec P twice (.jumpz (.text en)) = some (twice.drop.jumpTo q) := by
    rw [exec, if_pos htwice, target?_eq hP hend]
    rfl
  refine ⟨(twice.drop.jumpTo q).next.drop.next, ?_, ?_, ?_⟩
  · rw [stepsIn_fits hp.head rfl h.fits.next, stepsIn_fits hp.tail.head rfl f₂,
      stepsIn_fits hp.tail.tail.head htest (f₂.drop.jumpTo q),
      stepsIn_fits hend.head rfl (f₂.drop.jumpTo q).next,
      stepsIn_fits hend.tail.head rfl (f₂.drop.jumpTo q).next.drop.next]
    rfl
  · simp only [State.next_pc, State.drop_pc, State.jumpTo_pc, List.length_cons,
      List.length_append, List.length_nil]
    omega
  · have hmem : ∀ a ≤ m₀.sp + 8, twice.mem a = m.mem a := fun a ha => by
      simp [twice, show a ≠ m.sp + 8 by omega]
    refine ⟨?_, h.result.fp, (hmem _ (by omega)).trans h.result.mem, fun a ha hA => ?_⟩
    · simp [twice]
      omega
    · exact (hmem a (by omega)).trans (h.result.keeps a ha hA)

/-- The body is executed once, and the counter taken down. -/
theorem AtLabel.round (h : AtLabel M A m₀ last k m) (hk : k ≠ 0)
    (hP : (labelsOf Instr.name? P).Nodup) (hp : Placed P m.pc (loopCode lo en ca))
    (hA : ∀ a, A a → a ≤ m₀.sp)
    (hbody : ∀ m₁, RunsIn M P m m₁ → m₁.pc = m.pc + 6 → m₁.sp = m₀.sp + 8 → m₁.fp = m₀.fp →
      ∃ v m₂, Completes M P A ca m₁ v m₂) :
    ∃ v m', Round M P A ca m v m' ∧ AtLabel M A m₀ v ((k - 1).bmod M) m' := by
  obtain ⟨m₁, hs₁, hpc₁, h₁⟩ := h.enters hk hp
  have hr₁ := runs_of_steps hs₁
  obtain ⟨v, m₂, h₂⟩ := hbody m₁ hr₁ hpc₁ h₁.sp h₁.fp
  have hp₂ : Placed P m₁.pc (ca ++ _) := hpc₁ ▸ hp.tail.tail.tail.tail.tail.tail
  obtain ⟨m', hs', hpc', h'⟩ := AtLabel.back h₁ h₂.pushes hA (h.fits.run (hr₁.trans h₂.runs))
    (hp₂.behind h₂.pc) (target?_eq hP hp)
  exact ⟨v, m', ⟨⟨m₁, m₂, hs₁, hpc₁, h₂, hs'⟩, hpc'⟩, h'⟩

theorem Round.runs {body : List Instr} (h : Round M P A body m v m') : RunsIn M P m m' := by
  obtain ⟨⟨m₁, m₂, hs₁, -, h₂, hs'⟩, -⟩ := h
  exact (runs_of_steps hs₁).trans (h₂.runs.trans (runs_of_steps hs'))

/-- **The code of a loop makes as many rounds as its counter says**, and not one more before it is
    zero. -/
theorem AtLabel.rounds (hP : (labelsOf Instr.name? P).Nodup) (hA : ∀ a, A a → a ≤ m₀.sp) :
    ∀ (r : Nat) {m : State} {last k : Int}, AtLabel M A m₀ last k m →
      Placed P m.pc (loopCode lo en ca) → (∀ n, rounds? M k = some n → r ≤ n) →
      (∀ m₁, RunsIn M P m m₁ → m₁.pc = m.pc + 6 → m₁.sp = m₀.sp + 8 → m₁.fp = m₀.fp →
        ∃ v m₂, Completes M P A ca m₁ v m₂) →
      ∃ v k' m', Rounds M P A ca r last m v m' ∧ m'.pc = m.pc ∧ AtLabel M A m₀ v k' m' ∧
        rounds? M k' = (rounds? M k).map (· - r)
  | 0, m, last, k, h, _, _, _ => ⟨last, k, m, .none last m, rfl, h, by simp⟩
  | r + 1, m, last, k, h, hp, hle, hbody => by
    have hk : k ≠ 0 := by
      rintro rfl
      have := hle 0 (rounds?_eq_some.2 (Int.zero_emod _))
      omega
    have hcount := rounds?_pred h.counter_fits hk
    obtain ⟨w, m₁, h₁, hl₁⟩ := h.round hk hP hp hA hbody
    have hp₁ : Placed P m₁.pc (loopCode lo en ca) := h₁.pc ▸ hp
    obtain ⟨v, k', m', hs, hpc, hl', hcount'⟩ := AtLabel.rounds hP hA r hl₁ hp₁
      (fun n hn => by
        rw [hcount] at hn
        obtain ⟨n', hn', rfl⟩ := Option.map_eq_some_iff.1 hn
        have := hle n' hn'
        omega)
      (fun m₂ hr hpc => hbody m₂ (h₁.runs.trans hr) (h₁.pc ▸ hpc))
    refine ⟨v, k', m', .more h₁ hs, hpc.trans h₁.pc, hl', ?_⟩
    rw [hcount', hcount, Option.map_map]
    exact congrArg (Option.map · _) (funext fun n => by simp only [Function.comp]; omega)

theorem Rounds.steps {body : List Instr} {r : Nat} (h : Rounds M P A body r last m v m') :
    ∃ n, r ≤ n ∧ stepsIn M P n m = some m' := by
  induction h with
  | none => exact ⟨0, Nat.le_refl 0, rfl⟩
  | more h _ ih =>
    obtain ⟨⟨m₁, m₂, hs₁, -, h₂, hs₂⟩, -⟩ := h
    obtain ⟨n, hn, hs⟩ := ih
    obtain ⟨b, hb⟩ := steps_of_runs h₂.runs
    refine ⟨6 + (b + (2 + n)), by omega, ?_⟩
    rw [stepsIn_add, hs₁, Option.bind_some, stepsIn_add, hb, Option.bind_some, stepsIn_add, hs₂,
      Option.bind_some, hs]

theorem never_stops {body : List Instr} (hr : RunsIn M P m m₁)
    (h : ∀ r, ∃ v m₂, Rounds M P A body r last m₁ v m₂) (hm : RunsIn M P m m') :
    ∃ m'', stepIn M P m' = some m'' := by
  obtain ⟨i, hi⟩ := steps_of_runs hr
  obtain ⟨n, hn⟩ := steps_of_runs hm
  obtain ⟨v, m₂, hrounds⟩ := h (n + 1)
  obtain ⟨b, hb, hsteps⟩ := hrounds.steps
  obtain ⟨d, hd⟩ : ∃ d, i + b = n + (d + 1) := ⟨i + b - n - 1, by omega⟩
  have hall : stepsIn M P (i + b) m = some m₂ := by rw [stepsIn_add, hi, Option.bind_some, hsteps]
  rw [hd, stepsIn_add, hn, Option.bind_some, stepsIn] at hall
  obtain ⟨m'', hstep, -⟩ := Option.bind_eq_some_iff.1 hall
  exact ⟨m'', hstep⟩

end CMa

/-! ## Evaluation -/

/-- A number of evaluations of a body, none of which fails; `last` is the result before them, and
    `v` the one after them. -/
inductive Evaluations (body : Run Value) : Nat → Value → World → Value → World → Prop where
  | none (last : Value) (w : World) : Evaluations body 0 last w last w
  | more {r : Nat} {last x v : Value} {w w₁ w' : World} (h : body.exec w = (.ok x, w₁))
      (hs : Evaluations body r x w₁ v w') : Evaluations body (r + 1) last w v w'

theorem exec_repeatTimes_iff {body : Run Value} {v : Value} {w' : World} :
    ∀ (r : Nat) {last : Value} {w : World},
      (repeatTimes body r last).exec w = (.ok v, w') ↔ Evaluations body r last w v w'
  | 0, last, w => by
    rw [repeatTimes, ExceptT.exec_pure]
    constructor
    · intro h
      cases h
      exact .none _ _
    · intro h
      cases h
      rfl
  | r + 1, last, w => by
    rw [repeatTimes, ExceptT.exec_bind]
    constructor
    · intro h
      rcases hb : body.exec w with ⟨f | x, w₁⟩
      · rw [hb] at h
        cases h
      · rw [hb] at h
        exact .more hb ((exec_repeatTimes_iff r).1 h)
    · intro h
      cases h with
      | more hb hs =>
        rw [hb]
        exact (exec_repeatTimes_iff r).2 hs

/-- The evaluator evaluates the body of a loop as often as its count says, and a count that is
    negative counts as zero. -/
theorem exec_loop_iff {room scope : Nat} {p : Pos} {n a : Expr} {k : Int} {x v : Value}
    {w w₁ w₂ : World} (hn : (eval room n scope).exec w = (.ok x, w₁)) (hx : x.toInt = .ok k) :
    (evalNode room (fun used => eval (room - used)) (.loop p n a) scope).exec w = (.ok v, w₂) ↔
      Evaluations (eval room a scope) (max k 0).toNat .null w₁ v w₂ := by
  have hmax : (max k 0).toNat = k.toNat := by omega
  rw [hmax, ← exec_repeatTimes_iff]
  simp only [evalNode, Nat.sub_zero, ExceptT.exec_bind, hn, Run.liftM_eq, Run.exec_ofExcept, hx]

namespace CMa

/-! ## Loops -/

/-- **A loop runs its body as often as its counter takes to come to zero.**  The code of a loop
consists of that of its count and that of its body, with instructions around them.  Say that all
words are numbers modulo `M`, that the code of the count gives `k`, and that the code of the body
ends, wherever the run comes to it over the stack of the loop, with one word pushed and no other
words changed than those of `A`.  Then the code makes `rounds? M k` rounds and ends with the result
of the last one, or zero; if there is no such number, it makes one round after the other and never
comes to a stop.  This is the number of evaluations that the evaluator makes if and only if the
count is not negative. -/
theorem loop_runs_rounds {frame : Slots} {p : Pos} {n a : Expr} {s t : GenState} {c : List Item}
    (hc : (value frame (.loop p n a)).Gives s c t) :
    ∃ s' u cn ca, (value frame n).Gives s' cn u ∧ (value frame a).Gives u ca t ∧
      ∀ {M : Nat} {P : List Instr} {A : Int → Prop} {m m₁ : State} {k : Int},
        (labelsOf Instr.name? P).Nodup → Placed P m.pc (Item.flatList c) → Fits M m →
        (∀ a, A a → a ≤ m.sp) → Completes M P A (Item.flatList cn) (m.push 0).next k m₁ →
        (∀ m₂, RunsIn M P m₁ m₂ → m₂.pc = m₁.pc + 6 → m₂.sp = m.sp + 8 → m₂.fp = m.fp →
          ∃ v m₃, Completes M P A (Item.flatList ca) m₂ v m₃) →
        RunsIn M P m m₁ ∧
        (∀ r, rounds? M k = some r → ∃ v m₂ m', Rounds M P A (Item.flatList ca) r 0 m₁ v m₂ ∧
          stepsIn M P 5 m₂ = some m' ∧ m'.pc = m.pc + (Item.flatList c).length ∧
          Pushes A m v m') ∧
        (rounds? M k = none → (∀ r, ∃ v m₂, Rounds M P A (Item.flatList ca) r 0 m₁ v m₂) ∧
          ∀ m', RunsIn M P m m' → ∃ m'', stepIn M P m' = some m'') ∧
        (rounds? M k = some (max k 0).toNat ↔ 0 ≤ k) ∧
        ∀ {room scope : Nat} {x v : Value} {w w₁ w₂ : World},
          (eval room n scope).exec w = (.ok x, w₁) → x.toInt = .ok k →
          ((evalNode room (fun used => eval (room - used)) (.loop p n a) scope).exec w =
              (.ok v, w₂) ↔
            Evaluations (eval room a scope) (max k 0).toNat .null w₁ v w₂) := by
  obtain ⟨lo, en, s', cn, u, ca, -, hcn, hca, rfl⟩ := value_loop_gives hc
  refine ⟨s', u, cn, ca, hcn, hca, fun {M P A m m₁ k} hP hp hf hA hcount hbody => ?_⟩
  simp only [flatList_append, flatList_instr, flatList_nil, List.append_assoc, List.cons_append,
    List.nil_append] at hp ⊢
  have hzero : Pushes A m 0 (m.push 0).next := (Pushes.push A m 0).next
  have hfits : Fits M (m.push 0).next := (hf.push Int.zero_bmod).next
  have hp₀ : Placed P (m.push 0).next.pc _ := hp.tail
  have hp₁ : Placed P m₁.pc (loopCode lo en (Item.flatList ca)) := hp₀.behind hcount.pc
  have hlabel : AtLabel M A m 0 k m₁ := by
    refine ⟨hzero.under hcount.pushes fun ha => ?_, hcount.pushes.top, hfits.run hcount.runs⟩
    have := hA _ ha
    omega
  have hr₁ : RunsIn M P m m₁ := by
    refine .head ?_ hcount.runs
    rw [stepIn_eq hp.head rfl, hfits.wrap]
  refine ⟨hr₁, fun r hr => ?_, fun hr => ?_, rounds?_eq_max_iff hlabel.counter_fits,
    fun hn hx => exec_loop_iff hn hx⟩
  · obtain ⟨v, k', m₂, hs, hpc, hl, hk'⟩ := AtLabel.rounds hP hA r hlabel hp₁
      (fun n hn => Nat.le_of_eq (Option.some.inj (hr.symm.trans hn))) hbody
    rw [hr, Option.map_some, Nat.sub_self] at hk'
    obtain rfl := eq_zero_of_rounds? hl.counter_fits hk'
    obtain ⟨m', hsteps, hpc', hpush⟩ := hl.leaves hP (hpc ▸ hp₁)
    refine ⟨v, m₂, m', hs, hsteps, ?_, hpush⟩
    rw [hpc', hpc, hcount.pc]
    simp only [State.next_pc, State.push_pc, loopCode, List.length_cons, List.length_append,
      List.length_nil]
    omega
  · have hforever : ∀ r, ∃ v m₂, Rounds M P A (Item.flatList ca) r 0 m₁ v m₂ := fun r => by
      obtain ⟨v, k', m₂, hs, -⟩ := AtLabel.rounds hP hA r hlabel hp₁
        (fun n hn => by cases hr.symm.trans hn) hbody
      exact ⟨v, m₂, hs⟩
    exact ⟨hforever, fun m' hm' => never_stops hr₁ hforever hm'⟩

theorem completes_loadc {text : String} {w : Int} {d : List Instr} (hw : integer? text = some w)
    (hM : w.bmod M = w) (hf : Fits M m) (hp : Placed P m.pc (.loadc (.text text) :: d)) :
    Completes M P A [.loadc (.text text)] m w (m.push w).next := by
  have hexec : exec P m (.loadc (.text text)) = some (m.push w).next := by
    simp [exec, word?, hw]
  refine ⟨.single ?_, rfl, (Pushes.push A m w).next⟩
  rw [stepIn_eq hp.head hexec, (hf.push hM).next.wrap]

/-- `loop -1 do 5` makes `2 ^ 64 - 1` rounds with words of 64 bits, and never stops without bounds;
    the evaluator makes none. -/
theorem loop_runs_rounds_minus_one :
    let p : Pos := ⟨[], 1, 1⟩
    let e := Expr.loop p (.unary p .minus (.number p "1")) (.number p "5")
    let start : State := ⟨0, 0, 0, fun _ => 0⟩
    ∃ c t, (value [] e).Gives ⟨.empty, 0, []⟩ c t ∧
      (∃ m₁ v m₂ m', RunsIn (2 ^ 64) (Item.flatList c) start m₁ ∧
        Rounds (2 ^ 64) (Item.flatList c) (fun _ => False) [.loadc (.text "5")] (2 ^ 64 - 1) 0 m₁
          v m₂ ∧
        stepsIn (2 ^ 64) (Item.flatList c) 5 m₂ = some m' ∧
        m'.pc = (Item.flatList c).length) ∧
      (∀ m', RunsIn 0 (Item.flatList c) start m' →
        ∃ m'', stepIn 0 (Item.flatList c) m' = some m'') ∧
      (max (-1 : Int) 0).toNat = 0 := by
  intro p e start
  let P : List Instr := [.loadc (.int 0), .loadc (.text "1"), .unary .neg, .label (.text "loop0"),
    .dup, .jumpz (.text "endloop0"), .unary .dec, .swap, .pop, .loadc (.text "5"), .swap,
    .jump (.text "loop0"), .label (.text "endloop0"), .pop]
  let A : Int → Prop := fun _ => False
  have hc : (value [] e).Gives ⟨.empty, 0, []⟩ (P.map .instr) _ := rfl
  obtain ⟨s', u, cn, ca, hcn, hca, run⟩ := loop_runs_rounds hc
  obtain ⟨_, o, hone, ho, rfl⟩ := value_unary_gives hcn
  obtain ⟨rfl, rfl⟩ := Gen.gives_pure.1 hone
  obtain ⟨rfl, rfl⟩ := Gen.gives_pure.1 hca
  cases ho
  let one := ((start.push 0).next.push 1).next
  let m₁ := (one.drop.push (-1)).next
  have hfits : ∀ M, Fits M start := fun M a => Int.zero_bmod
  have hfits₁ : ∀ M, (1 : Int).bmod M = 1 → (-1 : Int).bmod M = -1 → Fits M m₁ := fun M h₁ h₂ =>
    ((((hfits M).push Int.zero_bmod).next.push h₁).next.drop.push h₂).next
  have hcount : ∀ M, (1 : Int).bmod M = 1 → (-1 : Int).bmod M = -1 →
      Completes M P A [.loadc (.text "1"), .unary .neg] (start.push 0).next (-1) m₁ := by
    intro M h₁ h₂
    have hp : Placed P (start.push 0).next.pc (.loadc (.text "1") :: .unary .neg :: P.drop 3) :=
      ⟨P.take 1, [], rfl, rfl⟩
    have hf : Fits M (start.push 0).next := ((hfits M).push Int.zero_bmod).next
    have hpush : Completes M P A _ _ 1 one := completes_loadc rfl h₁ hf hp
    have hone : P[one.pc]? = some (.unary .neg) := rfl
    have hneg : exec P one (.unary .neg) = some m₁ := by
      simp [exec, one, m₁, State.top, UnaryOp.apply]
    refine ⟨hpush.runs.trans (.single ?_), rfl, hpush.pushes.after (Pushes.push A one.drop _).next⟩
    rw [stepIn_eq hone hneg, (hfits₁ M h₁ h₂).wrap]
  have hbody : ∀ M, Fits M m₁ → (5 : Int).bmod M = 5 → ∀ m₂, RunsIn M P m₁ m₂ →
      m₂.pc = m₁.pc + 6 → m₂.sp = start.sp + 8 → m₂.fp = start.fp →
      ∃ v m₃, Completes M P A [.loadc (.text "5")] m₂ v m₃ := by
    intro M hf h₅ m₂ hr hpc _ _
    have hp : Placed P m₂.pc (.loadc (.text "5") :: P.drop 10) := hpc ▸ ⟨P.take 9, [], rfl, rfl⟩
    exact ⟨5, _, completes_loadc rfl h₅ (hf.run hr) hp⟩
  have hplaced : Placed P start.pc (Item.flatList (P.map .instr)) := Placed.whole P
  have hnodup : (labelsOf Instr.name? P).Nodup := by decide
  refine ⟨_, _, hc, ?_, fun m' hm' => ?_, rfl⟩
  · obtain ⟨hr, hrounds, -⟩ := run (M := 2 ^ 64) hnodup hplaced (hfits _) (fun _ => False.elim)
      (hcount _ (by decide) (by decide)) (hbody _ (hfits₁ _ (by decide) (by decide)) (by decide))
    obtain ⟨v, m₂, m', hs, hsteps, hpc, -⟩ := hrounds (2 ^ 64 - 1) (by decide)
    exact ⟨m₁, v, m₂, m', hr, hs, hsteps, hpc.trans (Nat.zero_add _)⟩
  · obtain ⟨-, -, hnone, -⟩ := run (M := 0) hnodup hplaced (hfits _) (fun _ => False.elim)
      (hcount _ rfl rfl) (hbody _ (hfits₁ _ rfl rfl) rfl)
    exact (hnone rfl).2 m' hm'

end CMa

end ExprLang
