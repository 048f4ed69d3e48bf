/-
  Stack levels in MaMa code.

  The generator counts the words on the stack, and turns the addresses of local variables into
  offsets from its top.  Along every path through generated code the count is right.

  * `levels` are paths that follow the height of the stack and the calls that have begun, and
    `length_exec` says that the machine changes its stack in the same way;
  * `depth_eq_level`: each instruction has one height, code for an expression and the body of a
    function leave one word more, and offsets lead to the addresses that were meant.
-/
import ExprLang.Proofs.MaMaLayout
import ExprLang.Proofs.MaMaMeaning

namespace ExprLang.MaMa

open Gen

/-- By how much an instruction changes the height of the stack; a call is counted where it
    returns. -/
def Instr.effect : Instr → Int
  | .loadc _ | .pushloc _ | .pushglob _ => 1
  | .binary _ | .jumpz _ | .patch _ => -1
  | .mkvec (.int n) => 1 - n
  | .mark _ => 3
  | .alloc (.int n) => n
  | .slide (.int n) => -n
  | _ => 0

/-- The height of the stack since the start of the function. -/
structure Level where
  depth : Int
  /-- The calls that have begun: where they return to, and the height before them. -/
  calls : List (Cell × Int)

/-- The height after an instruction.  After a call it is one more than before its mark. -/
def Level.after? (v : Level) : Instr → Option Level
  | .mark l => some ⟨v.depth + (Instr.mark l).effect, (l, v.depth) :: v.calls⟩
  | .apply => v.calls.head?.map fun c => ⟨c.2 + 1, v.calls.tail⟩
  | i => some ⟨v.depth + i.effect, v.calls⟩

/-- Paths that follow the height of the stack. -/
def levels : Flow Level :=
  ⟨fun i v => v.after? i, fun v => v.calls.head?.map Prod.fst, fun _ _ => some ⟨0, []⟩⟩

def functionStart (c : List Instr) (l : Cell) (v : Level) : Prop := .mkfunval l ∈ c ∧ v = ⟨0, []⟩

def Frame.heights (φ : Frame) : Level :=
  ⟨φ.level, φ.calls.map fun c => (c.1, φ.base + c.2.length)⟩

theorem heights_push (φ : Frame) (k : Kind) :
    (φ.push k).heights = ⟨φ.level + 1, φ.heights.calls⟩ := by
  simp [Frame.heights]

theorem heights_pushes (φ : Frame) (n : Nat) (k : Kind) :
    (φ.pushes n k).heights = ⟨φ.level + n, φ.heights.calls⟩ := by
  simp [Frame.heights]

theorem heights_of_take? {φ ψ : Frame} {k : Kind} (h : φ.take? k = some ψ) :
    ψ.heights = ⟨φ.level + -1, φ.heights.calls⟩ := by
  rw [Frame.eq_push_of_take? h]
  simp only [Frame.heights, Frame.level_push, Frame.base_push, Frame.calls_push, Level.mk.injEq,
    and_true]
  omega

/-- Some words are replaced by one. -/
theorem heights_of_takes? {φ ψ : Frame} {n : Nat} {k k' : Kind}
    (h : (φ.takes? n k).map (·.push k') = some ψ) :
    ψ.heights = ⟨φ.level + (1 - n), φ.heights.calls⟩ := by
  obtain ⟨χ, hχ, rfl⟩ := Option.map_eq_some_iff.1 h
  rw [Frame.eq_pushes_of_takes? hχ]
  simp only [Frame.heights, Frame.level_push, Frame.base_push, Frame.calls_push,
    Frame.level_pushes, Frame.base_pushes, Frame.calls_pushes, Level.mk.injEq, and_true]
  omega

theorem heights_of_exchange {φ ψ : Frame} {k k' : Kind}
    (h : (φ.take? k).map (·.push k') = some ψ) : ψ.heights = ⟨φ.level + 0, φ.heights.calls⟩ := by
  obtain ⟨χ, hχ, rfl⟩ := Option.map_eq_some_iff.1 h
  rw [Frame.eq_push_of_take? hχ]
  simp [Frame.heights]

theorem after?_heights {i : Instr} {φ ψ : Frame} (h : i.after? φ = some ψ) :
    φ.heights.after? i = some ψ.heights := by
  cases i with
  | loadc _ | pushglob _ =>
    cases h
    rw [heights_push]
    rfl
  | unary _ | mkbasic | getbasic | mkfunval _ | popenv =>
    rw [heights_of_exchange h]
    rfl
  | binary _ =>
    rw [heights_of_takes? h]
    rfl
  | label _ | jump _ =>
    cases h
    simp [Frame.heights, Level.after?, Instr.effect]
  | jumpz _ =>
    rw [heights_of_take? h]
    rfl
  | slide c =>
    obtain ⟨n, hn, hψ⟩ := Option.bind_eq_some_iff.1 h
    obtain ⟨-, hbase, hcalls, hlength, -⟩ := Frame.of_slide? hψ
    cases natural?_eq hn
    simp only [Level.after?, Frame.heights, Frame.level, Instr.effect, hbase, hcalls,
      Option.some.injEq, Level.mk.injEq, and_true]
    omega
  | pushloc c =>
    obtain ⟨n, -, h⟩ := Option.bind_eq_some_iff.1 h
    obtain ⟨k, -, rfl⟩ := Option.map_eq_some_iff.1 h
    rw [heights_push]
    rfl
  | mkvec c =>
    obtain ⟨n, hn, h⟩ := Option.bind_eq_some_iff.1 h
    cases natural?_eq hn
    rw [heights_of_takes? h]
    rfl
  | mark l =>
    cases h
    simp only [Level.after?, Frame.heights, Frame.level, Instr.effect, Frame.mark, Frame.base_push,
      Frame.stack_push, List.length_cons, List.map_cons, Option.some.injEq, Level.mk.injEq,
      and_true]
    omega
  | apply =>
    obtain ⟨χ, hχ, h⟩ := Option.bind_eq_some_iff.1 h
    obtain ⟨l, s, calls, hcalls, rfl, -⟩ := Frame.of_return? h
    rw [Frame.eq_push_of_take? hχ]
    simp only [Level.after?, Frame.heights, Frame.level, Frame.base_push, Frame.calls_push, hcalls,
      List.length_cons, List.map_cons, List.tail_cons, List.head?_cons, Option.map_some,
      Option.some.injEq, Level.mk.injEq, and_true]
    omega
  | alloc c =>
    obtain ⟨n, hn, rfl⟩ := Option.map_eq_some_iff.1 h
    cases natural?_eq hn
    rw [heights_pushes]
    rfl
  | patch c =>
    obtain ⟨n, -, h⟩ := Option.bind_eq_some_iff.1 h
    split at h
    · rw [heights_of_take? h]
      rfl
    · cases h
  | pop | dup | swap => cases h

theorem of_pop? {m m' : State} {k : Int → List Int → Option State} (h : m.pop? k = some m') :
    ∃ v s, m.stack = v :: s ∧ k v s = some m' := by
  rw [State.pop?] at h
  split at h
  · exact ⟨_, _, ‹_›, h⟩
  · cases h

theorem count?_of_natural? {P : List Instr} {c : Cell} {n : Nat} (h : natural? c = some n) :
    count? P c = some n := by
  rw [natural?_eq h, count?_int]

/-- The machine changes the height of its stack by the effect of the instruction, where the stack
    holds what it needs.  A call is over only when its function has returned. -/
theorem length_exec {P : List Instr} {m m' : State} {i : Instr} {φ ψ : Frame}
    (hψ : i.after? φ = some ψ) (hm : φ.stack.length ≤ m.stack.length) (h : exec P m i = some m')
    (hcall : i ≠ .apply) (hreturn : i ≠ .popenv) :
    (m'.stack.length : Int) = m.stack.length + i.effect := by
  cases i with
  | loadc _ | pushglob _ =>
    obtain ⟨w, -, rfl⟩ := Option.map_eq_some_iff.1 h
    simp [Instr.effect]
  | unary _ | mkbasic | getbasic =>
    obtain ⟨v, s, hs, hk⟩ := of_pop? h
    cases hk
    simp [Instr.effect, hs]
  | binary _ =>
    obtain ⟨v, s, hs, hk⟩ := of_pop? h
    obtain ⟨w, s', rfl, hk⟩ := of_pop? hk
    obtain ⟨r, -, rfl⟩ := Option.map_eq_some_iff.1 hk
    simp only [Instr.effect, hs, State.next_stack, State.on_stack, List.length_cons]
    omega
  | label _ =>
    cases h
    simp [Instr.effect]
  | jump _ =>
    obtain ⟨k, -, rfl⟩ := Option.map_eq_some_iff.1 h
    simp [Instr.effect]
  | jumpz _ =>
    obtain ⟨v, s, hs, hk⟩ := of_pop? h
    split at hk
    · obtain ⟨k, -, rfl⟩ := Option.map_eq_some_iff.1 hk
      simp only [Instr.effect, hs, State.jumpTo_stack, State.on_stack, List.length_cons]
      omega
    · cases hk
      simp only [Instr.effect, hs, State.next_stack, State.on_stack, List.length_cons]
      omega
  | slide c =>
    obtain ⟨n, hn, hslide⟩ := Option.bind_eq_some_iff.1 hψ
    have hlen : n < φ.stack.length := (Frame.of_slide? hslide).2.2.2.2
    rw [exec, count?_of_natural? hn] at h
    obtain ⟨v, s, hs, hk⟩ := of_pop? h
    cases hk
    cases natural?_eq hn
    rw [hs, List.length_cons] at hm
    simp only [Instr.effect, hs, State.next_stack, State.on_stack, List.length_cons,
      List.length_drop]
    omega
  | pushloc c =>
    obtain ⟨k, -, h⟩ := Option.bind_eq_some_iff.1 h
    obtain ⟨w, -, rfl⟩ := Option.map_eq_some_iff.1 h
    simp [Instr.effect]
  | mkvec c =>
    obtain ⟨n, hn, -⟩ := Option.bind_eq_some_iff.1 hψ
    rw [exec, count?_of_natural? hn] at h
    cases natural?_eq hn
    simp only [Option.bind_some] at h
    split at h
    · cases h
      simp only [Instr.effect, State.next_stack, State.object_stack, State.on_stack,
        List.length_cons, List.length_drop]
      omega
    · cases h
  | mkfunval _ =>
    obtain ⟨k, -, h⟩ := Option.bind_eq_some_iff.1 h
    obtain ⟨v, s, hs, hk⟩ := of_pop? h
    cases hk
    simp [Instr.effect, hs]
  | mark l =>
    obtain ⟨k, -, rfl⟩ := Option.map_eq_some_iff.1 h
    simp only [Instr.effect, State.next_stack, List.length_cons]
    omega
  | apply => exact absurd rfl hcall
  | popenv => exact absurd rfl hreturn
  | alloc c =>
    obtain ⟨n, hn, -⟩ := Option.map_eq_some_iff.1 hψ
    rw [exec, count?_of_natural? hn] at h
    cases natural?_eq hn
    cases h
    obtain ⟨-, hst, -⟩ := blanks_spec m n
    simp only [Instr.effect, State.next_stack, hst, List.length_append, List.length_reverse,
      length_blankRefs]
    omega
  | patch c =>
    obtain ⟨k, -, h⟩ := Option.bind_eq_some_iff.1 h
    obtain ⟨d, -, h⟩ := Option.bind_eq_some_iff.1 h
    obtain ⟨v, s, hs, hk⟩ := of_pop? h
    cases hk
    simp only [Instr.effect, hs, State.next_stack, State.copy_stack, State.on_stack,
      List.length_cons]
    omega
  | pop | dup | swap => cases hψ

theorem follows_levels (σ : Spot) : Follows levels Frame.heights σ where
  after φ h := by
    rw [Spot.Leads] at h
    split at h
    · rename_i hpushes
      rw [h, heights_push]
      cases hi : σ.instr with
      | loadc _ | pushloc _ => rfl
      | _ =>
        rw [hi] at hpushes
        cases hpushes
    · exact after?_heights h
  back := by simp [levels, Frame.heights, Frame.back?, Function.comp_def]

/-- Instructions lead to the addresses that they are there for, where the stack has the given
    height: a variable to its slot, and a binding to its place among those that were made for the
    `local`. -/
structure Spot.Addresses (G : Slots) (σ : Spot) (depth : Int) : Prop where
  variable_ : ∀ c, σ.instr = .pushloc c → ∃ scope x slot m, σ.note = .variable_ scope x ∧
    (scope.lookup x).or (G.lookup x) = some slot ∧ slot.storage = .local_ ∧ c = .int m ∧
    depth - m = slot.address
  places : ∀ c, σ.instr = .alloc c → ∃ level n, σ.note = .places level n ∧ c = .int n ∧
    depth = level
  binding : ∀ c, σ.instr = .patch c → ∃ level n i m, σ.note = .binding level n i ∧ i < n ∧
    c = .int m ∧ depth - m = level + 1 + i

theorem Fits.addresses {G : Slots} {T : List Spot} {σ : Spot} (h : Fits G T σ) :
    σ.Addresses G σ.frame.level := by
  cases h with
  | plain hi => constructor <;> rintro c ⟨⟩ <;> cases hi
  | missing => constructor <;> rintro c ⟨⟩
  | @variable_ φ scope x slot hx =>
    by_cases hs : slot.storage = .local_
    · rw [access, if_pos hs]
      refine ⟨?_, by rintro c ⟨⟩, by rintro c ⟨⟩⟩
      rintro c ⟨⟩
      exact ⟨scope, x, slot, _, rfl, hx, hs, rfl, Int.sub_sub_self _ _⟩
    · rw [access, if_neg hs]
      constructor <;> rintro c ⟨⟩
  | places =>
    refine ⟨by rintro c ⟨⟩, ?_, by rintro c ⟨⟩⟩
    rintro c ⟨⟩
    exact ⟨_, _, rfl, rfl, rfl⟩
  | @binding φ n m i hi =>
    refine ⟨by rintro c ⟨⟩, by rintro c ⟨⟩, ?_⟩
    rintro c ⟨⟩
    refine ⟨φ.level, n, i, m + 1, rfl, by omega, rfl, ?_⟩
    rw [Frame.level_push, Frame.level_pushes]
    omega
  | makes | function | leaves => constructor <;> rintro c ⟨⟩

/-- The body of a function leaves one word. -/
theorem Fits.frame_of_popenv {G : Slots} {T : List Spot} {σ : Spot} (h : Fits G T σ)
    (hi : σ.instr = .popenv) : ∃ fn params, σ.frame = (Frame.body fn params).push .ref := by
  cases h with
  | leaves => exact ⟨_, _, rfl⟩
  | plain hp =>
    cases hi
    cases hp
  | variable_ =>
    dsimp only [access] at hi
    split at hi <;> cases hi
  | _ => cases hi

theorem functionStart_iff {order : CaptureOrder} {G : Slots} {piece : Piece} {S : List Spot}
    {l : Cell} {v : Level} (h : Emits order G piece S) :
    functionStart (S.map Spot.instr) l v ↔
      ∃ τ ∈ S, τ.Starts ∧ τ.instr = .label l ∧ v = τ.frame.heights := by
  constructor
  · rintro ⟨hl, rfl⟩
    obtain ⟨fn, params, a, rfl, hτ⟩ := h.function_of_made hl
    exact ⟨_, hτ, rfl, rfl, rfl⟩
  · rintro ⟨τ, hτ, hstarts, hl, rfl⟩
    have hfits := h.fits (List.Subset.refl S) τ hτ
    refine ⟨hfits.made_of_starts hstarts hl, ?_⟩
    obtain ⟨fn, params, a, rfl⟩ := hfits.label_of_starts hstarts
    rfl

theorem compound_gives {want : Want} {scope : Slots} {kp : Int} {e : Option Expr} {s t : GenState}
    {c : List Instr} (h : (compound want scope kp e).Gives s c t) :
    (codeOrZeroBy ascending want scope kp e).Gives s c t := by
  cases e with
  | none => exact absurd h gives_throw
  | some e =>
    cases e with
    | ifThen p e a b => exact h
    | letIn p bs a => exact h
    | _ => exact absurd h gives_throw

/-- **The level that the generator counts is the height of the stack.**  On every path through the
    code, each instruction finds the stack at one height. -/
theorem depth_eq_level {order : CaptureOrder} {want : Want} {scope : Slots} {kp : Int}
    {e : Option Expr} {s t : GenState} {code : List Instr} {calls : Nat → Cell → Prop}
    (h : (codeOrZeroBy order want scope kp e).Gives s code t ∨
      order = ascending ∧ (compound want scope kp e).Gives s code t) :
    ∃ S, Emits order s.globals (.code want scope (.start kp []) e) S ∧ S.map Spot.instr = code ∧
      (∀ n ≤ code.length, ∃! v, Visits levels code (functionStart code) calls ⟨kp, []⟩ n v) ∧
      Visits levels code (functionStart code) calls ⟨kp, []⟩ code.length ⟨kp + 1, []⟩ ∧
      (∀ n v, code[n]? = some .popenv → Visits levels code (functionStart code) calls ⟨kp, []⟩ n v →
        v = ⟨1, []⟩) ∧
      ∀ n σ v, S[n]? = some σ → Visits levels code (functionStart code) calls ⟨kp, []⟩ n v →
        σ.frame.heights = v ∧ σ.Addresses s.globals v.depth := by
  have hgives : (codeOrZeroBy order want scope kp e).Gives s code t := by
    rcases h with h | ⟨rfl, h⟩
    · exact h
    · exact compound_gives h
  obtain ⟨-, hfresh, S, hS, rfl⟩ := codeOrZeroBy_laid order e [] hgives
  have hstart : (Frame.start kp []).heights = ⟨kp, []⟩ := by
    rw [Frame.heights, Frame.level_start]
    rfl
  have hfits : ∀ σ ∈ S, Fits s.globals S σ := hS.fits (List.Subset.refl S)
  have hvisits : ∀ n v, Visits levels (S.map Spot.instr) (functionStart (S.map Spot.instr))
      calls ⟨kp, []⟩ n v ↔ n ≤ S.length ∧
        v = (first ((Frame.start kp []).push want.kind) (S.drop n)).heights := by
    intro n v
    rw [← hstart]
    exact hS.visits_iff hfresh.nodup (fun σ _ => follows_levels σ)
      (fun l v => functionStart_iff hS) (fun l v w hl hw => ⟨hl, (Option.some.inj hw).symm⟩)
  have hspot : ∀ n σ v, S[n]? = some σ → Visits levels (S.map Spot.instr)
      (functionStart (S.map Spot.instr)) calls ⟨kp, []⟩ n v → σ.frame.heights = v := by
    intro n σ v hσ hv
    rw [((hvisits n v).1 hv).2, first_drop hσ]
  refine ⟨S, hS, rfl, fun n hn => ?_, ?_, fun n v hn hv => ?_, fun n σ v hσ hv => ?_⟩
  · refine ⟨_, (hvisits n _).2 ⟨by simpa using hn, rfl⟩, fun v hv => ((hvisits n v).1 hv).2⟩
  · refine (hvisits _ _).2 ⟨by simp, ?_⟩
    rw [List.length_map, List.drop_length, first_nil, heights_push,
      Frame.level_start]
    rfl
  · obtain ⟨σ, hσ, hi⟩ := spot_at hn
    obtain ⟨fn, params, hframe⟩ := (hfits σ (List.mem_of_getElem? hσ)).frame_of_popenv hi
    rw [← hspot n σ v hσ hv, hframe, heights_push, Frame.level_body]
    rfl
  · have hheights := hspot n σ v hσ hv
    refine ⟨hheights, ?_⟩
    rw [← hheights]
    exact (hfits σ (List.mem_of_getElem? hσ)).addresses

/-- A recursive function: the end of the code, a variable in the middle of a call, and the end of
    the function. -/
theorem depth_eq_level_sum : ∃ code t,
    (codeOrZeroBy ascending .basic [] 0 (some sumExpr)).Gives .initial code t ∧ code.length = 44 ∧
      code[15]? = some (.pushloc (.int 4)) ∧ code[30]? = some .popenv ∧
      Visits levels code (functionStart code) (fun _ _ => True) ⟨0, []⟩ 44 ⟨1, []⟩ ∧
      (∃! v, Visits levels code (functionStart code) (fun _ _ => True) ⟨0, []⟩ 15 v) ∧
      ∀ v, Visits levels code (functionStart code) (fun _ _ => True) ⟨0, []⟩ 30 v →
        v = ⟨1, []⟩ := by
  have hgives : (codeOrZeroBy ascending .basic [] 0 (some sumExpr)).Gives .initial _ _ := rfl
  obtain ⟨S, -, -, hone, hend, hpopenv, -⟩ := depth_eq_level (.inl hgives)
  exact ⟨_, _, hgives, rfl, rfl, rfl, hend, hone 15 (by decide), fun v => hpopenv 30 v rfl⟩

end ExprLang.MaMa
