/-
  Labels in generated code.

  Code names places by labels: jumps, marks and function values refer to one, and so does the
  constant that is pushed for a procedure.

  * `Instr.Formed`: an instruction has the operands that it should have;
  * `CMa.codes_formed`, `MaMa.Emits.formed`: generated code refers to its own labels only, and its
    other operands are whole numbers and the numbers of the expression;
  * `Gen.Grows`: a generator never takes a label back, also if it fails;
  * `labels_unique_and_closed`: over any number of compilations no label is used twice, and all code
    refers to its own labels only.
-/
import ExprLang.Proofs.GeneratorSteps
import ExprLang.Proofs.MaMaLayout

namespace ExprLang

/-! ## References -/

namespace Cell

def label? : Cell → Option String
  | .tuple [.text "label", .text l] => some l
  | _ => none

/-- The place that an instruction refers to. -/
def target? : Cell → Option Cell
  | .tuple [.text "jump", t] | .tuple [.text "jumpz", t] | .tuple [.text "mark", t]
  | .tuple [.text "mkfunval", t] => some t
  | _ => none

/-- The text that an instruction pushes as a constant. -/
def constant? : Cell → Option String
  | .tuple [.text "loadc", .text s] => some s
  | _ => none

mutual

def opened : Cell → List Cell
  | .block cs => openedAll cs
  | c => [c]

def openedAll : List Cell → List Cell
  | [] => []
  | c :: cs => c.opened ++ openedAll cs

end

end Cell

def codeLabels (code : List Cell) : List String := (Cell.openedAll code).filterMap Cell.label?

/-- The instruction refers to a label in `ls`, if to any place; a constant that it pushes is one of
    the literals `lits` or a label in `ls`. -/
def RefersTo (ls : List String) (lits : String → Prop) (c : Cell) : Prop :=
  (∀ t, c.target? = some t → ∃ l ∈ ls, t = .text l) ∧
    ∀ s, c.constant? = some s → lits s ∨ s ∈ ls

def RefersToItself (e : Option Expr) (code : List Cell) : Prop :=
  ∀ c ∈ Cell.openedAll code, RefersTo (codeLabels code) (fun s => ∃ a ∈ e, a.HasNumber s) c

/-! ## Operands -/

namespace CMa

variable {G : Slots} {P : String → Prop} {lits : String → Prop}

/-- The instruction has the operands that it should have: labels as `P` says, one of the literals
    `lits`, or a whole number. -/
def Instr.Formed (P lits : String → Prop) : Instr → Prop
  | .label t | .jump t | .jumpz t => ∃ l, P l ∧ t = .text l
  | .loadc (.text s) => lits s ∨ P s
  | .loadc t | .loadrc t | .alloc t | .slide t => ∃ n, t = .int n
  | _ => True

def Instr.Named (P : String → Prop) (i : Instr) : Prop := ∀ l ∈ i.name?, P l

theorem formed_addressOf (slot : Slot) : (addressOf slot).Formed P lits := by
  rw [addressOf]
  split
  · exact ⟨_, rfl⟩
  · exact ⟨_, rfl⟩

mutual

/-- **Generated instructions have the operands that they should have.** -/
theorem codes_formed : ∀ {frame : Slots} {e : Expr} {c : List Item}, Codes G frame e c →
    e.Numbers lits → (Item.flatList c).Forall (Instr.Named P) →
    (Item.flatList c).Forall (Instr.Formed P lits)
  | _, _, _, .number, hn, _ => by
    simpa [Instr.Formed] using .inl hn.number
  | _, _, _, .unary ha, hn, h => by
    have iha := codes_formed ha (hn.part (.head _))
    simp_all [Instr.Formed]
  | _, _, _, .binary ha hb, hn, h => by
    have iha := codes_formed ha (hn.part (.head _))
    have ihb := codes_formed hb (hn.part (.tail _ (.head _)))
    simp_all [Instr.Formed]
  | _, _, _, .assign ha _, hn, h => by
    rw [flatList_append, List.forall_append] at h ⊢
    exact ⟨codes_formed ha (hn.part (.head _)) h.1, formed_addressOf _, trivial⟩
  | _, _, _, .var _, _, _ => ⟨formed_addressOf _, trivial⟩
  | _, _, _, .last ha, hn, h => codes_formed ha (hn.part (.head _)) h
  | _, _, _, .before ha hs, hn, h => by
    have iha := codes_formed ha (hn.part (.head _))
    have ihs := codes_formed hs hn.tail
    simp_all [Instr.Formed]
  | _, _, _, .ifThen he ha hb, hn, h => by
    have ihe := codes_formed he (hn.part (.head _))
    have iha := codes_formed ha (hn.part (.tail _ (.head _)))
    have ihb := codes_formed hb (hn.part (by simp [Expr.parts]))
    simp_all [ifItems, Instr.Formed, Instr.Named, Instr.name?, numbered]
  | _, _, _, .ifOnly he ha, hn, h => by
    have ihe := codes_formed he (hn.part (.head _))
    have iha := codes_formed ha (hn.part (.tail _ (.head _)))
    simp_all [ifItems, Instr.Formed, Instr.Named, Instr.name?, numbered]
  | _, _, _, .whileDo he ha, hn, h => by
    have ihe := codes_formed he (hn.part (.head _))
    have iha := codes_formed ha (hn.part (.tail _ (.head _)))
    simp_all [Instr.Formed, Instr.Named, Instr.name?, numbered]
  | _, _, _, .loop hm ha, hn, h => by
    have ihm := codes_formed hm (hn.part (.head _))
    have iha := codes_formed ha (hn.part (.tail _ (.head _)))
    simp_all [Instr.Formed, Instr.Named, Instr.name?, numbered]
  | _, _, _, .doWhile ha he, hn, h => by
    have ihe := codes_formed he (hn.part (.head _))
    have iha := codes_formed ha (hn.part (.tail _ (.head _)))
    simp_all [Instr.Formed, Instr.Named, Instr.name?, numbered]
  | _, _, _, .proc hb, hn, h => by
    have ihb := codes_formed hb (hn.part (.head _))
    simp_all [Instr.Formed, Instr.Named, Instr.name?, numbered]
  | _, _, _, .call hargs hf, hn, h => by
    have ihf := codes_formed hf (hn.part (.head _))
    have ihargs := codesArgs_formed hargs fun e he => hn.part (.tail _ he)
    simp_all [Instr.Formed]

theorem codesArgs_formed : ∀ {frame : Slots} {es : List Expr} {c : List Item},
    CodesArgs G frame es c → (∀ e ∈ es, e.Numbers lits) →
    (Item.flatList c).Forall (Instr.Named P) → (Item.flatList c).Forall (Instr.Formed P lits)
  | _, _, _, .nil, _, _ => by simp
  | _, _, _, .cons ha hs, hn, h => by
    obtain ⟨hna, hns⟩ := List.forall_mem_cons.1 hn
    have iha := codes_formed ha hna
    have ihs := codesArgs_formed hs hns
    simp_all

end

theorem valueOrZero_formed {e : Option Expr} {c : List Item} {s t : GenState}
    (h : (valueOrZero [] e).Gives s c t) (hn : ∀ a ∈ e, a.Numbers lits)
    (hP : ∀ l ∈ labels c, P l) : (Item.flatList c).Forall (Instr.Formed P lits) := by
  cases e with
  | none =>
    obtain ⟨rfl, rfl⟩ := Gen.gives_pure.1 h
    simp [Instr.Formed]
  | some a =>
    refine codes_formed (value_codes [] a h fun _ _ => id) (hn a rfl) ?_
    exact List.forall_iff_forall_mem.2 fun i hi l hl =>
      hP l (List.mem_filterMap.2 ⟨i, hi, hl⟩)

end CMa

namespace MaMa

variable {order : CaptureOrder} {G : Slots} {P : String → Prop} {lits : String → Prop}

/-- The instruction has the operands that it should have: labels as `P` says, one of the literals
    `lits`, or a whole number. -/
def Instr.Formed (P lits : String → Prop) : Instr → Prop
  | .label t | .jump t | .jumpz t | .mark t | .mkfunval t => ∃ l, P l ∧ t = .text l
  | .loadc (.text s) => lits s ∨ P s
  | .loadc t | .slide t | .pushloc t | .pushglob t | .mkvec t | .alloc t | .patch t =>
    ∃ n, t = .int n
  | _ => True

def Instr.Named (P : String → Prop) (i : Instr) : Prop := ∀ l ∈ i.name?, P l

def Piece.Numbers (lits : String → Prop) : Piece → Prop
  | code _ _ _ e => ∀ a ∈ e, a.Numbers lits
  | arguments _ _ es => ∀ a ∈ es, a.Numbers lits
  | bindings _ _ _ bs => ∀ b ∈ bs, b.value.Numbers lits
  | reads .. => True

theorem formed_access (φ : Frame) (slot : Slot) : (access φ slot).Formed P lits := by
  rw [access]
  split
  · exact ⟨_, rfl⟩
  · exact ⟨_, rfl⟩

theorem formed_boxing (φ : Frame) (want : Want) :
    (boxing φ want).Forall (Instr.Formed P lits ∘ Spot.instr) := by
  cases want <;> simp [boxing, Instr.Formed]

theorem formed_unboxing (φ : Frame) (want : Want) :
    (unboxing φ want).Forall (Instr.Formed P lits ∘ Spot.instr) := by
  cases want <;> simp [unboxing, Instr.Formed]

/-- **Generated instructions have the operands that they should have.** -/
theorem Emits.formed {piece : Piece} {S : List Spot} (h : Emits order G piece S)
    (hn : piece.Numbers lits) (hS : (S.map Spot.instr).Forall (Instr.Named P)) :
    (S.map Spot.instr).Forall (Instr.Formed P lits) := by
  induction h with
  | missing => simp [Instr.Formed]
  | number => simpa [Instr.Formed, formed_boxing] using .inl (hn _ rfl).number
  | unary _ iha =>
    have ha := (hn _ rfl).part (.head _)
    simp_all [Piece.Numbers, Instr.Formed, formed_boxing]
  | binary _ _ iha ihb =>
    have ha := (hn _ rfl).part (.head _)
    have hb := (hn _ rfl).part (.tail _ (.head _))
    simp_all [Piece.Numbers, Instr.Formed, formed_boxing]
  | var _ ihx => simp_all [Piece.Numbers, formed_unboxing]
  | @ifThen _ _ _ _ _ _ _ _ e a b _ _ _ _ _ _ ihe iha ihb =>
    have he := (hn _ rfl).part (.head _)
    have ha := (hn _ rfl).part (.tail _ (.head _))
    have hb : ∀ b' ∈ b, b'.Numbers lits := fun b' hb' =>
      (hn _ rfl).part (.tail _ (.tail _ (Option.mem_toList.2 hb')))
    simp_all [Piece.Numbers, Instr.Formed, Instr.Named, Instr.name?]
  | @letIn _ _ _ _ bs _ _ _ _ _ ihi iha =>
    have ha := (hn _ rfl).part (List.mem_append_right _ (.head _))
    have hi : ∀ b ∈ bs, b.value.Numbers lits := fun b hb =>
      (hn _ rfl).part (List.mem_append_left _ (List.mem_map_of_mem hb))
    simp_all [Piece.Numbers, Instr.Formed]
  | @call _ _ _ _ _ _ args _ _ _ _ ihargs ihe =>
    have he := (hn _ rfl).part (.head _)
    have hargs : ∀ a ∈ args, a.Numbers lits := fun a ha => (hn _ rfl).part (.tail _ ha)
    simp_all [Piece.Numbers, Instr.Formed, Instr.Named, Instr.name?, formed_unboxing]
  | lambda _ _ _ _ _ ihx iha =>
    have ha := (hn _ rfl).part (.head _)
    simp_all [Piece.Numbers, Instr.Formed, Instr.Named, Instr.name?]
  | noArgument | noBinding | noVariable => trivial
  | argument _ _ ihs iha | binding _ _ _ ihs iha => simp_all [Piece.Numbers, Instr.Formed]
  | variable_ _ _ ihs => simp_all [Piece.Numbers, formed_access]

theorem codeOrZeroBy_formed {want : Want} {e : Option Expr} {c : List Instr} {s t : GenState}
    (h : (codeOrZeroBy order want [] 0 e).Gives s c t) (hn : ∀ a ∈ e, a.Numbers lits)
    (hP : ∀ l ∈ labels c, P l) : c.Forall (Instr.Formed P lits) := by
  obtain ⟨-, -, S, hS, rfl⟩ := codeOrZeroBy_laid order e [] h
  refine hS.formed hn (List.forall_iff_forall_mem.2 fun i hi l hl => ?_)
  exact hP l (List.mem_filterMap.2 ⟨i, hi, hl⟩)

end MaMa

/-! ## Counters never go back -/

namespace Gen

variable {α β : Type}

/-- No counter is lower after the generator than before, also if it fails. -/
def Grows (g : Gen α) : Prop :=
  ∀ s name, s.labels.count name ≤ (g.run.run s : Except GenFault α × GenState).2.labels.count name

theorem Grows.bind {g : Gen α} {k : α → Gen β} (hg : g.Grows) (hk : ∀ a, (k a).Grows) :
    (g >>= k).Grows := by
  intro s name
  rw [run_bind]
  have hs := hg s name
  rcases h : g.run.run s with ⟨f | a, t⟩ <;> rw [h] at hs
  · exact hs
  · exact hs.trans (hk a t name)

theorem Grows.of_labels {g : Gen α}
    (h : ∀ s, (g.run.run s : Except GenFault α × GenState).2.labels = s.labels) : g.Grows :=
  fun s _ => (h s).symm ▸ le_rfl

end Gen

open Gen

theorem Gen.Steps.grows {α : Type} {F : GenFault → Prop} {A : String → Prop} {g : Gen α}
    (h : g.Steps F A) : g.Grows := by
  induction h with
  | pure | throw | lift | slot? => exact fun _ _ => le_rfl
  | bind _ _ ihg ihk => exact ihg.bind ihk
  | freshLabel name => exact fun s y => s.labels.count_le_bump name y
  | declare =>
    refine Grows.bind (fun _ _ => le_rfl) fun r => ?_
    split
    · exact .of_labels fun _ => rfl
    · exact fun _ _ => le_rfl

/-! ## Compiling one expression -/

theorem codeLabels_eq {ι : Type} {cell : ι → Cell} {name? : ι → Option String}
    (hname : ∀ i, (cell i).label? = name? i) {code : List Cell} {c : List ι}
    (h : Cell.openedAll code = c.map cell) : codeLabels code = labelsOf name? c := by
  rw [codeLabels, h, List.filterMap_map]
  exact List.filterMap_congr fun i _ => hname i

namespace CMa

theorem label?_cell (i : Instr) : i.cell.label? = i.name? := by
  cases i with
  | label n => cases n <;> rfl
  | unary op => cases op <;> rfl
  | binary op => cases op <;> rfl
  | _ => rfl

mutual

theorem opened_cell : ∀ i : Item, i.cell.opened = i.flat.map Instr.cell
  | .instr i => by cases i <;> rfl
  | .block is => openedAll_cells is

theorem openedAll_cells : ∀ is : List Item,
    Cell.openedAll (Item.cells is) = (Item.flatList is).map Instr.cell
  | [] => rfl
  | i :: is => by
    rw [Item.cells, Cell.openedAll, Item.flatList, opened_cell i, openedAll_cells is,
      List.map_append]

end

theorem refersTo_cell {ls : List String} {lits : String → Prop} {i : Instr}
    (h : i.Formed (· ∈ ls) lits) : RefersTo ls lits i.cell := by
  cases i with
  | jump t | jumpz t => exact ⟨fun _ ht => Option.some.inj ht ▸ h, nofun⟩
  | loadc t =>
    cases t with
    | text s => exact ⟨nofun, fun _ hs => Option.some.inj hs ▸ h⟩
    | _ => exact ⟨nofun, nofun⟩
  | unary op => cases op <;> exact ⟨nofun, nofun⟩
  | binary op => cases op <;> exact ⟨nofun, nofun⟩
  | _ => exact ⟨nofun, nofun⟩

theorem valueOrZero_closed {e : Option Expr} {is : List Item} {s t : GenState}
    (h : (valueOrZero [] e).Gives s is t) : RefersToItself e (Item.cells is) := by
  have hformed := List.forall_iff_forall_mem.1 (valueOrZero_formed h
    (fun a ha s hs => (⟨a, ha, hs⟩ : ∃ a ∈ e, a.HasNumber s)) fun _ => id)
  intro d hd
  rw [openedAll_cells] at hd
  obtain ⟨i, hi, rfl⟩ := List.mem_map.1 hd
  rw [codeLabels_eq label?_cell (openedAll_cells is)]
  exact refersTo_cell (hformed i hi)

end CMa

namespace MaMa

theorem label?_cell (i : Instr) : i.cell.label? = i.name? := by
  cases i with
  | label n => cases n <;> rfl
  | unary op => cases op <;> rfl
  | binary op => cases op <;> rfl
  | _ => rfl

theorem openedAll_cells : ∀ is : List Instr,
    Cell.openedAll (is.map Instr.cell) = is.map Instr.cell
  | [] => rfl
  | i :: is => by
    rw [List.map_cons, Cell.openedAll, openedAll_cells is]
    cases i <;> rfl

theorem refersTo_cell {ls : List String} {lits : String → Prop} {i : Instr}
    (h : i.Formed (· ∈ ls) lits) : RefersTo ls lits i.cell := by
  cases i with
  | jump t | jumpz t | mark t | mkfunval t =>
    exact ⟨fun _ ht => Option.some.inj ht ▸ h, nofun⟩
  | loadc t =>
    cases t with
    | text s => exact ⟨nofun, fun _ hs => Option.some.inj hs ▸ h⟩
    | _ => exact ⟨nofun, nofun⟩
  | unary op => cases op <;> exact ⟨nofun, nofun⟩
  | binary op => cases op <;> exact ⟨nofun, nofun⟩
  | _ => exact ⟨nofun, nofun⟩

theorem codeOrZeroBy_closed {order : CaptureOrder} {want : Want} {e : Option Expr}
    {is : List Instr} {s t : GenState} (h : (codeOrZeroBy order want [] 0 e).Gives s is t) :
    RefersToItself e (is.map Instr.cell) := by
  have hformed := List.forall_iff_forall_mem.1 (codeOrZeroBy_formed h
    (fun a ha s hs => (⟨a, ha, hs⟩ : ∃ a ∈ e, a.HasNumber s)) fun _ => id)
  intro d hd
  rw [openedAll_cells] at hd
  obtain ⟨i, hi, rfl⟩ := List.mem_map.1 hd
  rw [codeLabels_eq label?_cell (openedAll_cells is)]
  exact refersTo_cell (hformed i hi)

end MaMa

section
variable {order : MaMa.CaptureOrder} {vm : Vm} {e : Option Expr} {c : Compiled} {s t : GenState}

theorem compileBy_grows (order : MaMa.CaptureOrder) (vm : Vm) (e : Option Expr) :
    (compileBy order vm e).Grows := by
  have hcode : (codeBy order vm e).Grows := by
    cases vm with
    | cma =>
      exact ((CMa.valueOrZero_steps .nil e (fun _ _ => .all fun _ => trivial)
        fun _ _ => trivial).bind fun _ => .pure _).grows (F := fun _ => True) (A := fun _ => True)
    | mama =>
      exact ((MaMa.codeOrZeroBy_steps order .basic [] 0 e fun _ _ => .all fun _ => trivial).bind
        fun _ => .pure _).grows (F := fun _ => True) (A := fun _ => True)
  have hscope : (modify fun s => { s with globals := [] } : Gen Unit).Grows :=
    .of_labels fun _ => rfl
  have hget : (get : Gen GenState).Grows := .of_labels fun _ => rfl
  exact hscope.bind fun _ => hcode.bind fun _ => hget.bind fun _ => fun _ _ => le_rfl

theorem compileBy_gives (h : (compileBy order vm e).Gives s c t) :
    (codeBy order vm e).Gives { s with globals := [] } c.code t := by
  simp only [compileBy, Gen.inScope, gives_bind, gives_modify, gives_pure, gives_get] at h
  obtain ⟨_, _, rfl, code, _, hcode, _, _, ⟨rfl, rfl⟩, rfl, rfl⟩ := h
  exact hcode

theorem compileBy_fresh (h : (compileBy order vm e).Gives s c t) :
    Fresh s t (codeLabels c.code) := by
  have hcode := compileBy_gives h
  suffices hf : Fresh { s with globals := [] } t (codeLabels c.code) from
    ⟨hf.grows, hf.made, hf.nodup⟩
  cases vm with
  | cma =>
    obtain ⟨is, _, his, h⟩ := gives_bind.1 hcode
    obtain ⟨hc, rfl⟩ := gives_pure.1 h
    rw [← hc, codeLabels_eq CMa.label?_cell (CMa.openedAll_cells is)]
    exact (CMa.valueOrZero_emits [] e his).toFresh
  | mama =>
    obtain ⟨is, _, his, h⟩ := gives_bind.1 hcode
    obtain ⟨hc, rfl⟩ := gives_pure.1 h
    rw [← hc, codeLabels_eq MaMa.label?_cell (MaMa.openedAll_cells is)]
    exact (MaMa.codeOrZeroBy_laid order e [] his).fresh

theorem compileBy_closed (h : (compileBy order vm e).Gives s c t) : RefersToItself e c.code := by
  have hcode := compileBy_gives h
  cases vm with
  | cma =>
    obtain ⟨is, _, his, h⟩ := gives_bind.1 hcode
    obtain ⟨hc, rfl⟩ := gives_pure.1 h
    exact hc ▸ CMa.valueOrZero_closed his
  | mama =>
    obtain ⟨is, _, his, h⟩ := gives_bind.1 hcode
    obtain ⟨hc, rfl⟩ := gives_pure.1 h
    exact hc ▸ MaMa.codeOrZeroBy_closed his

end

/-! ## Compiling one expression after the other -/

/-- Compiles expressions one after the other, each for a machine of its own.  The counters go on
    where the one before left them, also if that one failed. -/
def compileAll (order : MaMa.CaptureOrder) :
    List (Vm × Option Expr) → GenState → List (Except GenFault Compiled)
  | [], _ => []
  | (vm, e) :: jobs, s =>
    let (result, t) := (compileBy order vm e).run.run s
    result :: compileAll order jobs t

def resultLabels : Except GenFault Compiled → List String
  | .ok c => codeLabels c.code
  | .error _ => []

/-- If compiling went well, the code refers to itself only. -/
def Closed (job : Vm × Option Expr) : Except GenFault Compiled → Prop
  | .ok c => RefersToItself job.2 c.code
  | .error _ => True

theorem compileAll_fresh (order : MaMa.CaptureOrder) : ∀ jobs s,
    ∃ t, Fresh s t ((compileAll order jobs s).flatMap resultLabels)
  | [], s => ⟨s, .refl s⟩
  | (vm, e) :: jobs, s => by
    rcases h : (compileBy order vm e).run.run s with ⟨f | c, u⟩
    · obtain ⟨t, ht⟩ := compileAll_fresh order jobs u
      have hu : Fresh s u [] := ⟨fun x => by simpa [h] using compileBy_grows order vm e s x,
        by simp, .nil⟩
      exact ⟨t, by simpa [compileAll, h, resultLabels] using hu.trans ht⟩
    · obtain ⟨t, ht⟩ := compileAll_fresh order jobs u
      have hu : Fresh s u (codeLabels c.code) := compileBy_fresh h
      exact ⟨t, by simpa [compileAll, h, resultLabels] using hu.trans ht⟩

theorem compileAll_closed (order : MaMa.CaptureOrder) : ∀ jobs s,
    List.Forall₂ Closed jobs (compileAll order jobs s)
  | [], _ => .nil
  | (vm, e) :: jobs, s => by
    rcases h : (compileBy order vm e).run.run s with ⟨f | c, u⟩
    · simpa [compileAll, h, Closed] using compileAll_closed order jobs u
    · simpa [compileAll, h, Closed, show RefersToItself e c.code from compileBy_closed h]
        using compileAll_closed order jobs u

/-- **Labels are unique and closed.**  Whatever is compiled one after the other, from any counters
on, no label stands twice in all the code there is, and each code refers to its own labels only. -/
theorem labels_unique_and_closed (order : MaMa.CaptureOrder) (jobs : List (Vm × Option Expr))
    (s : GenState) :
    ((compileAll order jobs s).flatMap resultLabels).Nodup ∧
      List.Forall₂ Closed jobs (compileAll order jobs s) := by
  obtain ⟨t, ht⟩ := compileAll_fresh order jobs s
  exact ⟨ht.nodup, compileAll_closed order jobs s⟩

/-- The counters go on after `if true then x`, which fails once its labels are made. -/
example :
    let p : Pos := ⟨[], 1, 1⟩
    let one := Expr.number p "1"
    let choice := some (Expr.ifThen p one one none)
    (compileAll MaMa.ascending
      [(.cma, choice), (.cma, some (.ifThen p (.bool p true) (.var p "x") none)), (.mama, choice)]
      .initial).map resultLabels =
      [["if0", "then0", "else0", "endif0"], [], ["if2", "then2", "else2", "endif2"]] := by
  cbv

end ExprLang
