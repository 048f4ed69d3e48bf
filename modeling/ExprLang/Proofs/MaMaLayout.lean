/-
  How MaMa code is laid out.

  `Emits order G piece S` says which spots the code of a piece has: with each instruction, the stack
  that the generator expects there, and what the instruction is there for.

  * `codeBy_emits`: generated code has such spots, and uses every label once;
  * `Emits.linked`, `Emits.entered`, `Emits.routed`: what an instruction leaves is what the next
    ones expect;
  * `Emits.visits_iff`: so a path comes by every place, and sees there what is expected.
-/
import ExprLang.Proofs.MaMaPaths

namespace ExprLang.MaMa

/-! ## Pieces of code -/

/-- A piece of code, with its scope and the frame before it. -/
inductive Piece where
  /-- An expression, or a part that may be missing. -/
  | code (want : Want) (scope : Slots) (φ : Frame) (e : Option Expr)
  /-- The arguments of a call, the last one first. -/
  | arguments (scope : Slots) (φ : Frame) (es : List Expr)
  /-- The last ones of the `n` bindings of a `local`; the frame is the one outside it. -/
  | bindings (scope : Slots) (φ : Frame) (n : Nat) (bs : List (Binding Expr))
  /-- Some variables, one after the other. -/
  | reads (scope : Slots) (φ : Frame) (xs : List String)

namespace Piece

@[simp] def entry : Piece → Frame
  | code _ _ φ _ => φ
  | arguments _ φ _ => φ
  | bindings _ φ n _ => φ.pushes n .ref
  | reads _ φ _ => φ

@[simp] def exit : Piece → Frame
  | code want _ φ _ => φ.push want.kind
  | arguments _ φ es => φ.pushes es.length .ref
  | bindings _ φ n _ => φ.pushes n .ref
  | reads _ φ xs => φ.pushes xs.length .ref

end Piece

def boxing (φ : Frame) : Want → List Spot
  | .basic => []
  | .reference => [⟨φ.push .word, .plain, .mkbasic⟩]

def unboxing (φ : Frame) : Want → List Spot
  | .basic => [⟨φ.push .ref, .plain, .getbasic⟩]
  | .reference => []

def access (φ : Frame) (slot : Slot) : Instr :=
  if slot.storage = .local_ then .pushloc (.int (φ.level - slot.address))
  else .pushglob (.int slot.address)

/-- The piece has the given spots, where `G` are the variables outside all scopes. -/
inductive Emits (order : CaptureOrder) (G : Slots) : Piece → List Spot → Prop where
  | missing {want scope φ} :
      Emits order G (.code want scope φ none) [⟨φ, .missing want, .loadc (.int 0)⟩]
  | number {want scope φ p text} : Emits order G (.code want scope φ (some (.number p text)))
      (⟨φ, .plain, .loadc (.text text)⟩ :: boxing φ want)
  | unary {want scope φ p op o a A} (ha : Emits order G (.code .basic scope φ (some a)) A) :
      Emits order G (.code want scope φ (some (.unary p op a)))
        (A ++ ⟨φ.push .word, .plain, .unary o⟩ :: boxing φ want)
  | binary {want scope φ p op o a b A B} (ha : Emits order G (.code .basic scope φ (some a)) A)
      (hb : Emits order G (.code .basic scope (φ.push .word) (some b)) B) :
      Emits order G (.code want scope φ (some (.binary p op a b)))
        (A ++ B ++ ⟨(φ.push .word).push .word, .plain, .binary o⟩ :: boxing φ want)
  | var {want scope φ p x X} (hx : Emits order G (.reads scope φ [x]) X) :
      Emits order G (.code want scope φ (some (.var p x))) (X ++ unboxing φ want)
  | ifThen (i th el en : String) {want scope φ p e a b E A B}
      (he : Emits order G (.code .basic scope φ (some e)) E)
      (ha : Emits order G (.code want scope φ (some a)) A)
      (hb : Emits order G (.code want scope φ b) B) :
      Emits order G (.code want scope φ (some (.ifThen p e a b)))
        (⟨φ, .plain, .label (.text i)⟩ :: E ++ ⟨φ.push .word, .plain, .jumpz (.text el)⟩ ::
          ⟨φ, .plain, .label (.text th)⟩ :: A ++
          ⟨φ.push want.kind, .plain, .jump (.text en)⟩ :: ⟨φ, .plain, .label (.text el)⟩ :: B ++
          [⟨φ.push want.kind, .plain, .label (.text en)⟩])
  | letIn {want scope φ p bs a I A}
      (hi : Emits order G (.bindings (letSlots φ.level bs scope) φ bs.length bs) I)
      (ha : Emits order G
        (.code want (letSlots φ.level bs scope) (φ.pushes bs.length .ref) (some a)) A) :
      Emits order G (.code want scope φ (some (.letIn p bs a)))
        (⟨φ, .places φ.level bs.length, .alloc (.int bs.length)⟩ :: I ++ A ++
          [⟨(φ.pushes bs.length .ref).push want.kind, .plain, .slide (.int bs.length)⟩])
  | call (ret : String) {want scope φ p e args As E}
      (hargs : Emits order G (.arguments scope (φ.mark (.text ret)) args) As)
      (he : Emits order G
        (.code .reference scope ((φ.mark (.text ret)).pushes args.length .ref) (some e)) E) :
      Emits order G (.code want scope φ (some (.call p e args)))
        (⟨φ, .plain, .mark (.text ret)⟩ :: As ++ E ++
          ⟨((φ.mark (.text ret)).pushes args.length .ref).push .ref, .plain, .apply⟩ ::
          ⟨φ.push .ref, .plain, .label (.text ret)⟩ :: unboxing φ want)
  | lambda (fn af : String) {scope φ p params a rest names X A}
      (hnames : freeVars (.lambda p params a rest) = .ok names)
      (hx : Emits order G (.reads scope φ (order fn names)) X)
      (ha : Emits order G (.code .reference (functionSlots (order fn names) params ++ scope)
        (.body fn params) (some a)) A) :
      Emits order G (.code .reference scope φ (some (.lambda p params a rest)))
        (X ++ [⟨φ.pushes (order fn names).length .ref, .plain,
            .mkvec (.int (order fn names).length)⟩,
          ⟨φ.push .ref, .plain, .mkfunval (.text fn)⟩, ⟨φ.push .ref, .plain, .jump (.text af)⟩,
          ⟨.body fn params, .function params a, .label (.text fn)⟩] ++ A ++
          [⟨(Frame.body fn params).push .ref, .plain, .popenv⟩,
            ⟨φ.push .ref, .plain, .label (.text af)⟩])
  | noArgument {scope φ} : Emits order G (.arguments scope φ []) []
  | argument {scope φ a as A As} (hs : Emits order G (.arguments scope φ as) As)
      (ha : Emits order G (.code .reference scope (φ.pushes as.length .ref) (some a)) A) :
      Emits order G (.arguments scope φ (a :: as)) (As ++ A)
  | noBinding {scope φ n} : Emits order G (.bindings scope φ n []) []
  | binding {scope φ n b bs A Bs} (hn : bs.length < n)
      (ha : Emits order G (.code .reference scope (φ.pushes n .ref) (some b.value)) A)
      (hs : Emits order G (.bindings scope φ n bs) Bs) :
      Emits order G (.bindings scope φ n (b :: bs))
        (A ++ ⟨(φ.pushes n .ref).push .ref, .binding φ.level n (n - 1 - bs.length),
          .patch (.int (bs.length + 1))⟩ :: Bs)
  | noVariable {scope φ} : Emits order G (.reads scope φ []) []
  | variable_ {scope φ x xs slot X} (hx : (scope.lookup x).or (G.lookup x) = some slot)
      (hs : Emits order G (.reads scope (φ.push .ref) xs) X) :
      Emits order G (.reads scope φ (x :: xs)) (⟨φ, .variable_ scope x, access φ slot⟩ :: X)

/-! ## Generated code -/

open Gen

variable {order : CaptureOrder} {s t : GenState}

theorem map_boxing (φ : Frame) (want : Want) : (boxing φ want).map Spot.instr = boxed want := by
  cases want <;> rfl

theorem map_unboxing (φ : Frame) (want : Want) :
    (unboxing φ want).map Spot.instr = unboxed want := by
  cases want <;> rfl

/-- The generator has left the variables outside all scopes alone, it has made the labels of the
    code, and the code has the spots of the piece. -/
structure Laid (order : CaptureOrder) (s t : GenState) (piece : Piece) (c : List Instr) : Prop where
  globals : s.globals = t.globals
  fresh : Fresh s t (labels c)
  spots : ∃ S, Emits order s.globals piece S ∧ S.map Spot.instr = c

theorem variable_access {scope : Slots} {φ : Frame} {x : String} {c : List Instr}
    (h : (variable_ scope φ.level x).Gives s c t) :
    s = t ∧ ∃ slot, (scope.lookup x).or (s.globals.lookup x) = some slot ∧ c = [access φ slot] := by
  obtain ⟨rfl, slot, hslot, ⟨hlocal, rfl⟩ | ⟨hglobal, rfl⟩⟩ := variable_gives h
  · exact ⟨rfl, slot, hslot, by simp [access, hlocal]⟩
  · exact ⟨rfl, slot, hslot, by simp [access, hglobal]⟩

theorem variableCodes_emits (order : CaptureOrder) {scope : Slots} :
    ∀ {xs : List String} {φ : Frame} {c : List Instr},
    (variableCodes scope φ.level xs).Gives s c t → Laid order s t (.reads scope φ xs) c
  | [], φ, _, h => by
    obtain ⟨rfl, rfl⟩ := gives_pure.1 h
    exact ⟨rfl, .refl s, [], .noVariable, rfl⟩
  | x :: xs, φ, _, h => by
    obtain ⟨cx, cs, hx, hs, rfl⟩ := variableCodes_gives h
    obtain ⟨-, slot, hslot, rfl⟩ := variable_access hx
    rw [← Frame.level_push φ .ref] at hs
    obtain ⟨hglobals, hfresh, X, hX, rfl⟩ := variableCodes_emits order hs
    rw [labels_variableCodes hs] at hfresh
    rw [List.singleton_append]
    exact ⟨hglobals, labels_variableCodes h ▸ hfresh, _, .variable_ hslot hX, rfl⟩

mutual

/-- **Generated code has the spots of its expression.** -/
theorem codeBy_emits (order : CaptureOrder) : ∀ (e : Expr) {want : Want} {scope : Slots} {φ : Frame}
    {s t : GenState} {c : List Instr}, (codeBy order want scope φ.level e).Gives s c t →
    Laid order s t (.code want scope φ (some e)) c
  | .number _ _, want, _, φ, s, _, _, h => by
    simp only [codeBy] at h
    obtain ⟨rfl, rfl⟩ := gives_pure.1 h
    exact ⟨rfl, by cases want <;> exact .refl s, _, .number, by rw [List.map_cons, map_boxing]⟩
  | .unary _ _ a, want, _, φ, s, t, c, h => by
    obtain ⟨ca, o, ha, -, rfl⟩ := codeBy_unary_gives h
    obtain ⟨hg, hl, A, hA, rfl⟩ := codeBy_emits order a ha
    have hw : labelsOf Instr.name? (boxed want) = [] := labels_boxed want
    exact ⟨hg, hl.perm (by simp [labels, labelsOf_cons, Instr.name?, hw]), _,
      .unary (o := o) hA, by simp [map_boxing]⟩
  | .binary _ _ a b, want, scope, φ, s, t, c, h => by
    obtain ⟨ca, u, cb, o, ha, hb, -, rfl⟩ := codeBy_binary_gives h
    rw [← Frame.level_push φ .word] at hb
    obtain ⟨hg, hl, A, hA, rfl⟩ := codeBy_emits order a ha
    obtain ⟨hg', hl', B, hB, rfl⟩ := codeBy_emits order b hb
    rw [← hg] at hB
    have hw : labelsOf Instr.name? (boxed want) = [] := labels_boxed want
    exact ⟨hg.trans hg', (hl.trans hl').perm (by simp [labels, labelsOf_cons, Instr.name?, hw]), _,
      .binary (o := o) hA hB, by simp [map_boxing]⟩
  | .var _ x, want, scope, φ, s, t, c, h => by
    obtain ⟨cx, hx, rfl⟩ := codeBy_var_gives h
    have hcx : labels cx = [] := labels_variable hx
    obtain ⟨rfl, slot, hslot, rfl⟩ := variable_access hx
    refine ⟨rfl, ?_, _, .var (.variable_ hslot .noVariable), by simp [map_unboxing]⟩
    rw [labels, labelsOf_append, ← labels, ← labels, hcx, labels_unboxed]
    exact .refl s
  | .ifThen _ e a b, want, scope, φ, s, t, c, h => by
    obtain ⟨i, th, el, en, s', ce, u, ca, v, cb, ⟨hl, hs⟩, he, ha, hb, rfl⟩ := codeBy_ifThen_gives h
    obtain ⟨hg₁, hl₁, E, hE, rfl⟩ := codeBy_emits order e he
    obtain ⟨hg₂, hl₂, A, hA, rfl⟩ := codeBy_emits order a ha
    obtain ⟨hg₃, hl₃, B, hB, rfl⟩ := codeOrZeroBy_emits order b hb
    rw [← hg₂, ← hg₁, ← hs] at hB
    rw [← hg₁, ← hs] at hA
    rw [← hs] at hE
    refine ⟨hs.trans (hg₁.trans (hg₂.trans hg₃)), ?_, _, .ifThen i th el en hE hA hB, by simp⟩
    refine (hl.trans (hl₁.trans (hl₂.trans hl₃))).perm (List.perm_iff_count.2 fun l => ?_)
    simp only [labels, labelsOf_append, labelsOf_cons, Instr.name?, List.count_append,
      List.count_cons, Option.toList]
    simp; omega
  | .letIn _ bs a, want, scope, φ, s, t, c, h => by
    obtain ⟨ci, u, ca, hi, ha, rfl⟩ := codeBy_letIn_gives h
    rw [← Frame.level_pushes φ bs.length .ref] at ha
    obtain ⟨hg, hl, I, hI, rfl⟩ := initialiseBy_emits order bs le_rfl hi
    obtain ⟨hg', hl', A, hA, rfl⟩ := codeBy_emits order a ha
    rw [← hg] at hA
    exact ⟨hg.trans hg', (hl.trans hl').perm (by simp [labels, labelsOf_cons, Instr.name?]), _,
      .letIn hI hA, by simp⟩
  | .lambda _ params a rest, want, scope, φ, s, t, c, h => by
    obtain ⟨rfl, fn, af, s', names, cx, ca, ⟨hl, hs⟩, hnames, hx, ha, rfl⟩ := codeBy_lambda_gives h
    rw [← Frame.level_body fn params] at ha
    have hcx : labelsOf Instr.name? cx = [] := labels_variableCodes hx
    obtain ⟨-, -, X, hX, rfl⟩ := variableCodes_emits order hx
    obtain ⟨hg, hl', A, hA, rfl⟩ := codeBy_emits order a ha
    rw [← hs] at hX hA
    refine ⟨hs.trans hg, ?_, _, .lambda fn af hnames hX hA, by simp⟩
    refine (hl.trans hl').perm (List.perm_iff_count.2 fun l => ?_)
    simp [labels, labelsOf_cons, Instr.name?, List.count_append, List.count_cons, hcx]
  | .call _ e args, want, scope, φ, s, t, c, h => by
    obtain ⟨ret, s', cas, u, ce, ⟨hl, hs⟩, hargs, he, rfl⟩ := codeBy_call_gives h
    rw [← Frame.level_mark φ (.text ret)] at hargs he
    rw [← Frame.level_pushes _ args.length .ref] at he
    obtain ⟨hg₁, hl₁, As, hAs, rfl⟩ := argumentsBy_emits order args hargs
    obtain ⟨hg₂, hl₂, E, hE, rfl⟩ := codeBy_emits order e he
    rw [← hg₁, ← hs] at hE
    rw [← hs] at hAs
    refine ⟨hs.trans (hg₁.trans hg₂), ?_, _, .call ret hAs hE, by simp [map_unboxing]⟩
    have hw : labelsOf Instr.name? (unboxed want) = [] := labels_unboxed want
    refine (hl.trans (hl₁.trans hl₂)).perm (List.perm_iff_count.2 fun l => ?_)
    simp [labels, labelsOf_cons, Instr.name?, List.count_append, List.count_cons, hw]; omega
  | .index _ a b, _, _, _, _, _, _, h => by
    simp only [codeBy, gives_bind] at h
    obtain ⟨_, _, _, _, _, _, h⟩ := h
    exact absurd h gives_throw
  | .bool .., _, _, _, _, _, _, h | .string .., _, _, _, _, _, _, h
  | .char .., _, _, _, _, _, _, h | .array .., _, _, _, _, _, _, h
  | .dict .., _, _, _, _, _, _, h | .assign .., _, _, _, _, _, _, h
  | .lock .., _, _, _, _, _, _, h | .sequence .., _, _, _, _, _, _, h
  | .loop .., _, _, _, _, _, _, h | .whileDo .., _, _, _, _, _, _, h
  | .doWhile .., _, _, _, _, _, _, h | .proc .., _, _, _, _, _, _, h
  | .struct .., _, _, _, _, _, _, h | .member .., _, _, _, _, _, _, h
  | .memberAssign .., _, _, _, _, _, _, h | .this .., _, _, _, _, _, _, h
  | .importFile .., _, _, _, _, _, _, h | .trap .., _, _, _, _, _, _, h => by
    simp only [codeBy] at h
    exact absurd h gives_throw

theorem argumentsBy_emits (order : CaptureOrder) : ∀ (es : List Expr) {scope : Slots} {φ : Frame}
    {s t : GenState} {c : List Instr}, (argumentsBy order scope φ.level es).Gives s c t →
    Laid order s t (.arguments scope φ es) c
  | [], _, _, s, _, _, h => by
    obtain ⟨rfl, rfl⟩ := gives_pure.1 h
    exact ⟨rfl, .refl s, [], .noArgument, rfl⟩
  | a :: as, scope, φ, s, t, c, h => by
    obtain ⟨cs, u, ca, hs, ha, rfl⟩ := argumentsBy_gives h
    rw [← Frame.level_pushes φ as.length .ref] at ha
    obtain ⟨hg, hl, As, hAs, rfl⟩ := argumentsBy_emits order as hs
    obtain ⟨hg', hl', A, hA, rfl⟩ := codeBy_emits order a ha
    rw [← hg] at hA
    exact ⟨hg.trans hg', (hl.trans hl').perm (by simp [labels]), _, .argument hAs hA, by simp⟩

theorem codeOrZeroBy_emits (order : CaptureOrder) : ∀ (e : Option Expr) {want : Want}
    {scope : Slots} {φ : Frame} {s t : GenState} {c : List Instr},
    (codeOrZeroBy order want scope φ.level e).Gives s c t → Laid order s t (.code want scope φ e) c
  | none, _, _, _, s, _, _, h => by
    obtain ⟨rfl, rfl⟩ := gives_pure.1 h
    exact ⟨rfl, .refl s, _, .missing, rfl⟩
  | some a, _, _, _, _, _, _, h => codeBy_emits order a h

theorem initialiseBy_emits (order : CaptureOrder) : ∀ (bs : List (Binding Expr)) {scope : Slots}
    {φ : Frame} {n : Nat} {s t : GenState} {c : List Instr}, bs.length ≤ n →
    (initialiseBy order scope (φ.level + n) bs).Gives s c t →
    Laid order s t (.bindings scope φ n bs) c
  | [], _, _, _, s, _, _, _, h => by
    obtain ⟨rfl, rfl⟩ := gives_pure.1 h
    exact ⟨rfl, .refl s, [], .noBinding, rfl⟩
  | ⟨p, target, a⟩ :: bs, scope, φ, n, s, t, c, hn, h => by
    obtain ⟨ca, u, cs, ha, hs, rfl⟩ := initialiseBy_gives h
    rw [← Frame.level_pushes φ n .ref] at ha
    obtain ⟨hg, hl, A, hA, rfl⟩ := codeBy_emits order a ha
    obtain ⟨hg', hl', Bs, hBs, rfl⟩ := initialiseBy_emits order bs (Nat.le_of_succ_le hn) hs
    rw [← hg] at hBs
    exact ⟨hg.trans hg', (hl.trans hl').perm (by simp [labels, labelsOf_cons, Instr.name?]), _,
      .binding (b := ⟨p, target, a⟩) hn hA hBs, by simp⟩

end

theorem codeOrZeroBy_laid (order : CaptureOrder) (e : Option Expr) {want : Want} {scope : Slots}
    {kp : Int} (under : List Kind) {c : List Instr}
    (h : (codeOrZeroBy order want scope kp e).Gives s c t) :
    Laid order s t (.code want scope (.start kp under) e) c :=
  codeOrZeroBy_emits order e ((Frame.level_start kp under).symm ▸ h)

/-! ## Paths through a piece -/

section
variable {G : Slots} {piece : Piece} {S : List Spot} {φ : Frame}

@[simp] theorem first_boxing (φ : Frame) (want : Want) :
    first (φ.push want.kind) (boxing φ want) = φ.push .word := by
  cases want <;> rfl

@[simp] theorem first_unboxing (φ : Frame) (want : Want) :
    first (φ.push want.kind) (unboxing φ want) = φ.push .ref := by
  cases want <;> rfl

/-- A piece starts with the frame before it. -/
theorem Emits.first_eq (h : Emits order G piece S) : first piece.exit S = piece.entry := by
  induction h with
  | missing | number | ifThen | letIn | call | noArgument | noBinding | noVariable
  | variable_ => simp
  | unary _ ih | binary _ _ ih ih' | var _ ih | lambda _ _ _ _ _ ih _ | argument _ _ ih ih'
  | binding _ _ _ ih _ => simp_all

theorem linked_boxing (φ : Frame) (want : Want) :
    Linked (φ.push want.kind) (boxing φ want) := by
  cases want <;> simp [boxing, Spot.Leads, Instr.pushes]

theorem linked_unboxing (φ : Frame) (want : Want) :
    Linked (φ.push want.kind) (unboxing φ want) := by
  cases want <;> simp [unboxing, Spot.Leads, Instr.pushes]

theorem leads_jump (φ : Frame) (note : Note) (l : Cell) : Spot.Leads ⟨φ, note, .jump l⟩ φ := rfl

theorem leads_jumpz (φ : Frame) (note : Note) (l : Cell) :
    Spot.Leads ⟨φ.push .word, note, .jumpz l⟩ φ := by
  simp [Spot.Leads, Instr.pushes]

theorem leads_access (φ : Frame) (scope : Slots) (x : String) (slot : Slot) :
    Spot.Leads ⟨φ, .variable_ scope x, access φ slot⟩ (φ.push .ref) := by
  by_cases h : slot.storage = .local_
  · simp [Spot.Leads, access, h, Instr.pushes, Note.kind]
  · simp [Spot.Leads, access, h, Instr.pushes, Instr.after?]

theorem falls_access (φ : Frame) (slot : Slot) : (access φ slot).falls = true := by
  rw [access]
  split <;> rfl

theorem leads_patch (φ : Frame) (note : Note) {m n : Nat} (h : m < n) :
    Spot.Leads ⟨(φ.pushes n .ref).push .ref, note, .patch (.int (m + 1))⟩ (φ.pushes n .ref) := by
  simp [Spot.Leads, Instr.pushes, Instr.after?_patch, h]

/-- What an instruction leaves is what the next one expects. -/
theorem Emits.linked (h : Emits order G piece S) : Linked piece.exit S := by
  induction h with
  | missing => simp [Spot.Leads, Instr.pushes, Note.kind]
  | number => simp [Spot.Leads, Instr.pushes, Note.kind, linked_boxing]
  | unary ha ih => simp_all [Spot.Leads, Instr.pushes, linked_boxing]
  | binary ha hb iha ihb =>
    have := hb.first_eq
    simp_all [Spot.Leads, Instr.pushes, linked_boxing]
  | var hx ih => simp_all [linked_unboxing]
  | ifThen i th el en he ha hb ihe iha ihb =>
    have := he.first_eq
    have := ha.first_eq
    have := hb.first_eq
    simp_all [Spot.Leads, Instr.pushes, Instr.after?, Instr.falls]
  | letIn hi ha ihi iha =>
    have := hi.first_eq
    have := ha.first_eq
    simp_all [Spot.Leads, Instr.pushes, Instr.after?]
  | call ret hargs he ihargs ihe =>
    have := hargs.first_eq
    have := he.first_eq
    simp_all [Spot.Leads, Instr.pushes, Instr.after?, Instr.falls, linked_unboxing]
  | lambda fn af hnames hx ha ihx iha =>
    have := hx.first_eq
    have := ha.first_eq
    simp_all [Spot.Leads, Instr.pushes, Instr.after?, Instr.falls]
  | noArgument | noBinding | noVariable => simp
  | argument hs ha ihs iha =>
    have := ha.first_eq
    simp_all
  | binding hn ha hs iha ihs =>
    have := hs.first_eq
    simp_all [leads_patch]
  | variable_ hx hs ih =>
    have hfirst := hs.first_eq
    simp only [Piece.exit, Piece.entry, Frame.pushes_push] at ih hfirst
    exact ⟨fun _ => by rw [Piece.exit, List.length_cons, hfirst]; exact leads_access .., ih⟩

theorem entered_boxing {B : List Spot} (φ : Frame) (want : Want) : Entered B (boxing φ want) := by
  cases want <;> simp [boxing, Entered, Instr.falls]

theorem entered_unboxing {B : List Spot} (φ : Frame) (want : Want) :
    Entered B (unboxing φ want) := by
  cases want <;> simp [unboxing, Entered, Instr.falls]

/-- Behind a jump, a call and the end of a function comes a label that is reached in another way. -/
theorem Emits.entered (h : Emits order G piece S) : ∀ {B : List Spot}, Entered B S := by
  induction h with
  | missing => exact entered_cons rfl entered_nil
  | number => exact entered_cons rfl (entered_boxing ..)
  | unary _ ih => exact ih.append (entered_cons rfl (entered_boxing ..))
  | binary _ _ iha ihb => exact (iha.append ihb).append (entered_cons rfl (entered_boxing ..))
  | var _ ih => exact ih.append (entered_unboxing ..)
  | @ifThen i th el en _ _ φ _ _ _ _ _ _ _ _ _ _ ihe iha ihb =>
    intro B
    refine (((entered_cons rfl ihe).append (entered_cons rfl (entered_cons rfl iha))).append
      (entered_label rfl (.inr ?_) ihb)).append (entered_cons rfl entered_nil)
    exact ⟨⟨φ.push .word, .plain, .jumpz (.text el)⟩, by simp, rfl, leads_jumpz ..⟩
  | letIn _ _ ihi iha =>
    exact ((entered_cons rfl ihi).append iha).append (entered_cons rfl entered_nil)
  | call ret _ _ ihargs ihe =>
    intro B
    refine ((entered_cons rfl ihargs).append ihe).append
      (entered_label rfl (.inr ?_) (entered_unboxing ..))
    exact ⟨_, List.mem_concat_self, by simp [Spot.target?, Instr.target?, Frame.back?, Frame.mark],
      by simp [Spot.Leads, Instr.pushes]⟩
  | @lambda fn af _ φ _ _ _ _ _ _ _ _ _ _ ihx iha =>
    intro B
    refine ((ihx.append (entered_cons rfl (entered_cons rfl
      (entered_label rfl (.inl rfl) entered_nil)))).append iha).append
      (entered_label rfl (.inr ?_) entered_nil)
    exact ⟨⟨φ.push .ref, .plain, .jump (.text af)⟩, by simp, rfl, rfl⟩
  | noArgument | noBinding | noVariable => exact entered_nil
  | argument _ _ ihs iha => exact ihs.append iha
  | binding _ _ _ iha ihs => exact iha.append (entered_cons rfl ihs)
  | variable_ _ _ ih =>
    exact entered_cons (falls_access ..) ih

theorem routed_boxing (φ : Frame) (want : Want) : Routed (boxing φ want) := by
  cases want
  · exact routed_nil
  · exact routed_nil.plain rfl

theorem routed_unboxing (φ : Frame) (want : Want) : Routed (unboxing φ want) := by
  cases want
  · exact routed_nil.plain rfl
  · exact routed_nil

/-- Jumps and calls stay in their piece, and find there what they leave. -/
theorem Emits.routed (h : Emits order G piece S) : Routed S := by
  induction h with
  | missing => exact routed_nil.plain rfl
  | number => exact (routed_boxing _ _).plain rfl
  | unary _ ih => exact ih.append ((routed_boxing _ _).plain rfl)
  | binary _ _ iha ihb => exact (iha.append ihb).append ((routed_boxing _ _).plain rfl)
  | var _ ih => exact ih.append (routed_unboxing _ _)
  | @ifThen i th el en want _ φ _ _ _ _ _ _ _ _ _ _ ihe iha ihb =>
    simp only [List.cons_append, List.append_assoc]
    have hend := ihb.append
      (routed_nil.plain (σ := ⟨φ.push want.kind, .plain, .label (.text en)⟩) rfl)
    have helse := (hend.plain (σ := ⟨φ, .plain, .label (.text el)⟩) rfl).jump
      (σ := ⟨φ.push want.kind, .plain, .jump (.text en)⟩) rfl
      (τ := ⟨φ.push want.kind, .plain, .label (.text en)⟩) (by simp) rfl rfl
    have hthen := ((iha.append helse).plain (σ := ⟨φ, .plain, .label (.text th)⟩) rfl).jump
      (σ := ⟨φ.push .word, .plain, .jumpz (.text el)⟩) rfl
      (τ := ⟨φ, .plain, .label (.text el)⟩) (by simp) rfl (leads_jumpz ..)
    exact (ihe.append hthen).plain rfl
  | letIn _ _ ihi iha => exact ((ihi.plain rfl).append iha).append (routed_nil.plain rfl)
  | @call ret want _ φ _ _ args _ _ _ _ ihargs ihe =>
    refine ((ihargs.plain rfl).append ihe).append (((routed_unboxing φ want).plain rfl).jump
      (x := ret) ?_ (.head _) rfl ?_)
    · simp [Spot.target?, Instr.target?, Frame.back?, Frame.mark]
    · simp [Spot.Leads, Instr.pushes]
  | @lambda fn af _ φ _ params _ _ _ _ _ _ _ _ ihx iha =>
    simp only [List.cons_append, List.append_assoc, List.nil_append]
    have hbody := iha.append
      ((routed_nil.plain (σ := ⟨φ.push .ref, .plain, .label (.text af)⟩) rfl).plain
        (σ := ⟨(Frame.body fn params).push .ref, .plain, .popenv⟩) rfl)
    exact ihx.append ((((hbody.plain rfl).jump (x := af) rfl
      (τ := ⟨φ.push .ref, .plain, .label (.text af)⟩) (by simp) rfl
      (leads_jump ..)).plain rfl).plain rfl)
  | noArgument | noBinding | noVariable => exact routed_nil
  | argument _ _ ihs iha => exact ihs.append iha
  | binding _ _ _ iha ihs => exact iha.append (ihs.plain rfl)
  | variable_ _ _ ih =>
    refine ih.plain ?_
    simp only [Spot.target?, access]
    split <;> rfl

end

/-! ## Single spots -/

def Instr.plain : Instr → Bool
  | .pushloc _ | .alloc _ | .patch _ | .mkfunval _ | .popenv => false
  | _ => true

/-- What can be said of each spot on its own, where `T` are the spots around it. -/
inductive Fits (G : Slots) (T : List Spot) : Spot → Prop where
  | plain {φ i} (hi : i.plain = true) : Fits G T ⟨φ, .plain, i⟩
  | missing {φ want} : Fits G T ⟨φ, .missing want, .loadc (.int 0)⟩
  | variable_ {φ scope x slot} (hx : (scope.lookup x).or (G.lookup x) = some slot) :
      Fits G T ⟨φ, .variable_ scope x, access φ slot⟩
  | places {φ : Frame} {n : Nat} : Fits G T ⟨φ, .places φ.level n, .alloc (.int n)⟩
  | binding {φ : Frame} {n m i : Nat} (hi : m + 1 + i = n) :
      Fits G T ⟨(φ.pushes n .ref).push .ref, .binding φ.level n i, .patch (.int (m + 1))⟩
  | makes {φ params fn a} (h : ⟨.body fn params, .function params a, .label (.text fn)⟩ ∈ T) :
      Fits G T ⟨φ, .plain, .mkfunval (.text fn)⟩
  | function {φ params fn a} (h : ⟨φ, .plain, .mkfunval (.text fn)⟩ ∈ T) :
      Fits G T ⟨.body fn params, .function params a, .label (.text fn)⟩
  | leaves {fn params} : Fits G T ⟨(Frame.body fn params).push .ref, .plain, .popenv⟩

section
variable {G : Slots} {T : List Spot}

theorem fits_boxing (φ : Frame) (want : Want) : ∀ σ ∈ boxing φ want, Fits G T σ := by
  cases want
  · simp [boxing]
  · simpa [boxing] using .plain rfl

theorem fits_unboxing (φ : Frame) (want : Want) : ∀ σ ∈ unboxing φ want, Fits G T σ := by
  cases want
  · simpa [unboxing] using .plain rfl
  · simp [unboxing]

theorem Emits.fits {piece : Piece} {S : List Spot} (h : Emits order G piece S) :
    ∀ {T : List Spot}, S ⊆ T → ∀ σ ∈ S, Fits G T σ := by
  induction h with
  | missing => exact fun _ => by simpa using .missing
  | number => exact fun _ => List.forall_mem_cons.2 ⟨.plain rfl, fits_boxing _ _⟩
  | unary _ ih =>
    intro T hT
    simp only [List.append_subset, List.cons_subset] at hT
    exact List.forall_mem_append.2 ⟨ih hT.1, List.forall_mem_cons.2 ⟨.plain rfl, fits_boxing _ _⟩⟩
  | binary _ _ iha ihb =>
    intro T hT
    simp only [List.append_subset, List.cons_subset] at hT
    simp only [List.forall_mem_append, List.forall_mem_cons]
    exact ⟨⟨iha hT.1.1, ihb hT.1.2⟩, .plain rfl, fits_boxing _ _⟩
  | var _ ih =>
    intro T hT
    exact List.forall_mem_append.2 ⟨ih (List.append_subset.1 hT).1, fits_unboxing _ _⟩
  | ifThen i th el en _ _ _ ihe iha ihb =>
    intro T hT
    simp only [List.append_subset, List.cons_subset] at hT
    simp only [List.forall_mem_append, List.forall_mem_cons]
    exact ⟨⟨⟨⟨.plain rfl, ihe hT.1.1.1.2⟩, .plain rfl, .plain rfl, iha hT.1.1.2.2.2⟩,
      .plain rfl, .plain rfl, ihb hT.1.2.2.2⟩, .plain rfl, by simp⟩
  | letIn _ _ ihi iha =>
    intro T hT
    simp only [List.append_subset, List.cons_subset] at hT
    simp only [List.forall_mem_append, List.forall_mem_cons]
    exact ⟨⟨⟨.places, ihi hT.1.1.2⟩, iha hT.1.2⟩, .plain rfl, by simp⟩
  | call ret _ _ ihargs ihe =>
    intro T hT
    simp only [List.append_subset, List.cons_subset] at hT
    simp only [List.forall_mem_append, List.forall_mem_cons]
    exact ⟨⟨⟨.plain rfl, ihargs hT.1.1.2⟩, ihe hT.1.2⟩, .plain rfl, .plain rfl, fits_unboxing _ _⟩
  | lambda fn af _ _ _ ihx iha =>
    intro T hT
    simp only [List.append_subset, List.cons_subset] at hT
    obtain ⟨⟨⟨hX, -, hmakes, -, hstart, -⟩, hA⟩, -⟩ := hT
    simp only [List.forall_mem_append, List.forall_mem_cons]
    exact ⟨⟨⟨ihx hX, .plain rfl, .makes hstart, .plain rfl, .function hmakes, by simp⟩, iha hA⟩,
      .leaves, .plain rfl, by simp⟩
  | noArgument | noBinding | noVariable => simp
  | argument _ _ ihs iha =>
    intro T hT
    obtain ⟨hs, ha⟩ := List.append_subset.1 hT
    exact List.forall_mem_append.2 ⟨ihs hs, iha ha⟩
  | binding hn _ _ iha ihs =>
    intro T hT
    simp only [List.append_subset, List.cons_subset] at hT
    simp only [List.forall_mem_append, List.forall_mem_cons]
    exact ⟨iha hT.1, .binding (by omega), ihs hT.2.2⟩
  | variable_ hx _ ih =>
    intro T hT
    exact List.forall_mem_cons.2 ⟨.variable_ hx, ih (List.cons_subset.1 hT).2⟩

theorem Fits.label_of_starts {σ : Spot} (h : Fits G T σ) (hσ : σ.Starts) :
    ∃ fn params a, σ = ⟨.body fn params, .function params a, .label (.text fn)⟩ := by
  cases h with
  | function => exact ⟨_, _, _, rfl⟩
  | _ => cases hσ

/-- A function that has its code among the spots is made there. -/
theorem Fits.made_of_starts {σ : Spot} {l : Cell} (h : Fits G T σ) (hσ : σ.Starts)
    (hl : σ.instr = .label l) : .mkfunval l ∈ T.map Spot.instr := by
  cases h with
  | function hmakes =>
    cases hl
    exact List.mem_map.2 ⟨_, hmakes, rfl⟩
  | _ => cases hσ

theorem Emits.function_of_made {piece : Piece} {S : List Spot} (h : Emits order G piece S)
    {l : Cell} (hl : .mkfunval l ∈ S.map Spot.instr) : ∃ fn params a, l = .text fn ∧
      ⟨.body fn params, .function params a, .label (.text fn)⟩ ∈ S := by
  obtain ⟨σ, hσ, hi⟩ := List.mem_map.1 hl
  cases h.fits (List.Subset.refl S) σ hσ with
  | plain hp =>
    cases hi
    cases hp
  | makes hτ =>
    cases hi
    exact ⟨_, _, _, rfl, hτ⟩
  | variable_ =>
    rw [access] at hi
    split at hi <;> cases hi
  | _ => cases hi

/-- A path comes by every place of the code, and sees there what is expected, if calls enter a
    function with what is seen there anyway. -/
theorem Emits.visits_iff {α : Type} {F : Flow α} {g : Frame → α} {enters : Cell → α → Prop}
    {calls : Nat → Cell → Prop} {piece : Piece} {S : List Spot} {n : Nat} {a : α}
    (h : Emits order G piece S) (hP : (labels (S.map Spot.instr)).Nodup)
    (hF : ∀ σ ∈ S, Follows F g σ)
    (henters : ∀ l a, enters l a ↔ ∃ τ ∈ S, τ.Starts ∧ τ.instr = .label l ∧ a = g τ.frame)
    (hcalls : ∀ l a b, .mkfunval l ∈ S.map Spot.instr → F.entered? l a = some b → enters l b) :
    Visits F (S.map Spot.instr) enters calls (g piece.entry) n a ↔
      n ≤ S.length ∧ a = g (first piece.exit (S.drop n)) := by
  have hlabel : ∀ l a, enters l a → ∃ τ ∈ S, ∃ (x : String) (_ : Unit), l = .text x ∧
      τ.instr = .label (.text x) ∧ True ∧ a = g τ.frame := by
    intro l a hl
    obtain ⟨τ, hτ, hstarts, hlabel, ha⟩ := (henters l a).1 hl
    obtain ⟨fn, params, b, rfl⟩ := (h.fits (List.Subset.refl S) τ hτ).label_of_starts hstarts
    cases hlabel
    exact ⟨_, hτ, fn, (), rfl, rfl, trivial, ha⟩
  rw [← h.first_eq]
  constructor
  · intro hv
    obtain ⟨hn, -, -, ha⟩ := of_visits (g := fun _ => g) (A := fun _ _ => True) () hP
      h.linked h.routed (fun σ hσ _ _ => hF σ hσ) hlabel
      (fun _ l b _ _ _ _ _ _ hl _ hb => hlabel l b (hcalls l _ b hl hb)) trivial hv
    exact ⟨hn, ha⟩
  · rintro ⟨hn, rfl⟩
    have hstart : Visits F (S.map Spot.instr) enters calls (g (first piece.exit S)) 0 _ := .start
    have hvisits := visits_of_linked (B := []) (m := 0) h.linked h.entered (.whole _)
      (by simpa using hF)
      (fun q l τ hτ hstarts hl hq => .enter hq ((henters l _).2 ⟨τ, hτ, hstarts, hl, rfl⟩))
      (by simp) hstart n hn
    simpa using hvisits

end

end ExprLang.MaMa
