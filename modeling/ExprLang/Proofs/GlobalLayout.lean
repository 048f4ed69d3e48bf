/-
  Where the CMa keeps global variables.

  A global variable is given its place when it is first assigned, while code is being generated, and
  also if that happens inside a procedure.  The places are eight bytes each and follow one another.

  * `LaidOut a s`: the variables of a state lie one behind the other from the address `a` on;
  * `Extends A s t`: from `s` to `t`, variables were added behind the others, all of them as `A`
    says; every generator does that, also if it fails (`extends_of_steps`);
  * `codes_accesses`: the code has the addresses of the variables that an expression uses before its
    loads and stores;
  * `globals_laid_out` is the statement about generated code.
-/
import ExprLang.Proofs.GeneratorSteps
import ExprLang.Proofs.ReservedBytes

namespace ExprLang

/-! ## States of the generator -/

namespace CMa

/-- The global variables lie one behind the other from `a` on, and so does the next one. -/
structure LaidOut (a : Int) (s : GenState) : Prop where
  slot : ∀ {i : Nat} {x : String} {slot : Slot}, s.globals[i]? = some (x, slot) →
    slot = ⟨.global, a + 8 * i, some 8⟩
  nodup : (s.globals.map Prod.fst).Nodup
  next : s.next = a + 8 * s.globals.length

/-- From `s` to `t`, global variables with names from `A` were added behind the others. -/
structure Extends (A : String → Prop) (s t : GenState) : Prop where
  laid : ∀ {a}, LaidOut a s → LaidOut a t
  kept : s.globals <+: t.globals
  added : ∀ x ∈ t.globals.map Prod.fst, x ∈ s.globals.map Prod.fst ∨ A x

namespace Extends

variable {A : String → Prop} {s t u : GenState}

theorem of_eq (hg : t.globals = s.globals) (hn : t.next = s.next) : Extends A s t where
  laid h := ⟨hg ▸ h.slot, hg ▸ h.nodup, by rw [hn, hg, h.next]⟩
  kept := hg ▸ List.prefix_refl _
  added _ hx := .inl (hg ▸ hx)

theorem trans (h : Extends A s t) (h' : Extends A t u) : Extends A s u where
  laid ha := h'.laid (h.laid ha)
  kept := h.kept.trans h'.kept
  added x hx := (h'.added x hx).elim (h.added x) .inr

/-- A name that is not known is put behind the others. -/
theorem put {x : String} (hx : s.globals.lookup x = none) (hA : A x) :
    Extends A s { s with
      next := s.next + 8, globals := s.globals.put x ⟨.global, s.next, some 8⟩ } := by
  have hnew : s.globals.any (·.1 == x) = false := by rw [any_eq_isSome_lookup, hx]; rfl
  have hput : s.globals.put x ⟨.global, s.next, some 8⟩ =
      s.globals ++ [(x, ⟨.global, s.next, some 8⟩)] := by rw [Slots.put, hnew]; rfl
  rw [hput]
  refine ⟨fun {a} h => ⟨fun {i y slot} hy => ?_, ?_, ?_⟩, List.prefix_append _ _, fun y hy => ?_⟩
  · rw [List.getElem?_append] at hy
    split at hy
    · exact h.slot hy
    · obtain ⟨hi, hslot⟩ := List.getElem?_eq_some_iff.1 hy
      have hlen : i = s.globals.length := by simp at hi; omega
      subst hlen
      simp only [Nat.sub_self, List.getElem_cons_zero, Prod.mk.injEq] at hslot
      rw [← hslot.2, h.next]
  · have hfresh : x ∉ s.globals.map Prod.fst := by
      intro hmem
      obtain ⟨b, hb, hbx⟩ := List.mem_map.1 hmem
      have hany : s.globals.any (·.1 == x) = true := List.any_eq_true.2 ⟨b, hb, by simpa using hbx⟩
      rw [hnew] at hany
      cases hany
    rw [List.map_append, List.nodup_append]
    refine ⟨h.nodup, by simp, ?_⟩
    rintro y hy z hz rfl
    obtain rfl : y = x := by simpa using hz
    exact hfresh hy
  · simp [h.next]
    omega
  · rw [List.map_append, List.mem_append] at hy
    exact hy.imp id fun hy => by
      obtain rfl : y = x := by simpa using hy
      exact hA

end Extends

namespace LaidOut

variable {a : Int} {s : GenState}

theorem slot_of_mem (h : LaidOut a s) {b : String × Slot} (hb : b ∈ s.globals) :
    ∃ i : Nat, i < s.globals.length ∧ b.2 = ⟨.global, a + 8 * i, some 8⟩ := by
  obtain ⟨i, hi⟩ := List.mem_iff_getElem?.1 hb
  exact ⟨i, (List.getElem?_eq_some_iff.1 hi).1, h.slot hi⟩

/-- Each variable ends before the next one begins. -/
theorem apart (h : LaidOut a s) : s.globals.Pairwise fun b c => b.2.address + 8 ≤ c.2.address := by
  rw [List.pairwise_iff_getElem]
  intro i j hi hj hij
  have hslot : ∀ {k : Nat} (hk : k < s.globals.length),
      s.globals[k].2 = ⟨.global, a + 8 * k, some 8⟩ := fun hk => h.slot (List.getElem?_eq_getElem hk)
  rw [hslot hi, hslot hj]
  show a + 8 * (i : Int) + 8 ≤ a + 8 * (j : Int)
  omega

theorem inside (h : LaidOut a s) : ∀ b ∈ s.globals,
    a ≤ b.2.address ∧ b.2.address + 8 ≤ a + 8 * s.globals.length := by
  intro b hb
  obtain ⟨i, hi, hslot⟩ := h.slot_of_mem hb
  rw [hslot]
  show a ≤ a + 8 * (i : Int) ∧ a + 8 * (i : Int) + 8 ≤ a + 8 * (s.globals.length : Int)
  omega

theorem global_of_lookup (h : LaidOut a s) {x : String} {slot : Slot}
    (hx : s.globals.lookup x = some slot) : slot.storage = .global := by
  obtain ⟨before, after, hmem, -⟩ := List.lookup_eq_some_iff.1 hx
  obtain ⟨i, -, hslot⟩ := h.slot_of_mem (b := (x, slot)) (by rw [hmem]; simp)
  rw [show slot = _ from hslot]

end LaidOut

end CMa

/-! ## Generators add variables -/

namespace Gen

variable {α β : Type} {A : String → Prop}

/-- Whether it fails or not, the generator only adds global variables with names from `A`. -/
def Extends (A : String → Prop) (g : Gen α) : Prop :=
  ∀ s, CMa.Extends A s (g.run.run s : Except GenFault α × GenState).2

theorem Extends.bind {g : Gen α} {k : α → Gen β} (hg : g.Extends A) (hk : ∀ a, (k a).Extends A) :
    (g >>= k).Extends A := by
  intro s
  rw [run_bind]
  have hs := hg s
  rcases h : g.run.run s with ⟨f | a, t⟩ <;> rw [h] at hs
  · exact hs
  · exact hs.trans (hk a t)

end Gen

open Gen

namespace CMa

/-! ## Generated code adds variables -/

variable {A : String → Prop}

theorem declare_extends {frame : Slots} {x : String} (hA : frame.lookup x = none → A x) :
    (declare frame x).Extends A := by
  intro s
  show CMa.Extends A s (((if ((frame.lookup x).or (s.globals.lookup x)).isNone then
    modify _ else pure ()) : Gen Unit).run.run s : Except GenFault Unit × GenState).2
  split
  · next hnone =>
    rw [Option.isNone_iff_eq_none, Option.or_eq_none_iff] at hnone
    exact .put hnone.2 (hA hnone.1)
  · exact .of_eq rfl rfl

/-- **Generators add variables.**  Whether a generator fails or not, it puts what it declares behind
    the variables that are there. -/
theorem extends_of_steps {α : Type} {F : GenFault → Prop} {g : Gen α} (h : g.Steps F A) :
    g.Extends A := by
  induction h with
  | pure | throw | lift | freshLabel | slot? => exact fun _ => .of_eq rfl rfl
  | bind _ _ ihg ihk => exact ihg.bind ihk
  | declare h => exact declare_extends h

/-! ## Addresses in code -/

/-- The constant that an instruction pushes, if the next one loads or stores at it. -/
def constantAccess : Instr → Option Instr → List (Cell × Instr)
  | .loadc v, some .load => [(v, .load)]
  | .loadc v, some .store => [(v, .store)]
  | _, _ => []

/-- The constants at which code loads and stores, in order. -/
def constantAccesses : List Instr → List (Cell × Instr)
  | [] => []
  | i :: c => constantAccess i c.head? ++ constantAccesses c

def Instr.touches : Instr → Bool
  | .load | .store => true
  | _ => false

/-- The code does not begin with a load or store. -/
def beginsApart (c : List Instr) : Bool := !c.head?.any Instr.touches

theorem constantAccess_head? {d : List Instr} (h : beginsApart d = true) (i : Instr) :
    constantAccess i d.head? = [] := by
  cases d with
  | nil => cases i <;> rfl
  | cons j d =>
    cases j with
    | load | store => cases h
    | _ => cases i <;> rfl

theorem constantAccesses_append {d : List Instr} (h : beginsApart d = true) : ∀ c : List Instr,
    constantAccesses (c ++ d) = constantAccesses c ++ constantAccesses d
  | [] => rfl
  | [i] => by
    simp only [List.cons_append, List.nil_append, constantAccesses, constantAccess_head? h]
    cases i <;> rfl
  | i :: j :: c => by
    have ih := constantAccesses_append h (j :: c)
    rw [List.cons_append] at ih
    rw [List.cons_append, List.cons_append, constantAccesses, ih, constantAccesses.eq_2 i (j :: c),
      List.append_assoc]
    rfl

/-- The access is the use of a global variable, at the address that `G` has for it. -/
def Locates (G : Slots) (use : String × Instr) (access : Cell × Instr) : Prop :=
  access.2 = use.2 ∧ ∃ slot, G.lookup use.1 = some slot ∧ access.1 = .int slot.address

/-- The code loads and stores at the addresses of the variables that are used. -/
structure Accesses (G : Slots) (uses : List (String × Instr)) (c : List Instr) : Prop where
  begins : beginsApart c = true
  places : List.Forall₂ (Locates G) uses (constantAccesses c)

namespace Accesses

variable {G : Slots} {us vs : List (String × Instr)} {c d : List Instr}

theorem quiet (hb : beginsApart c = true) (hc : constantAccesses c = []) : Accesses G [] c :=
  ⟨hb, by rw [hc]; exact .nil⟩

theorem append (hc : Accesses G us c) (hd : Accesses G vs d) : Accesses G (us ++ vs) (c ++ d) := by
  refine ⟨?_, ?_⟩
  · cases c with
    | nil => exact hd.begins
    | cons i c => exact hc.begins
  · rw [constantAccesses_append hd.begins]
    exact List.rel_append hc.places hd.places

/-- Instructions that use no variable may stand in front. -/
theorem behind (hd : Accesses G us d) (hb : beginsApart c = true) (hc : constantAccesses c = []) :
    Accesses G us (c ++ d) := (quiet hb hc).append hd

/-- Instructions that use no variable may follow. -/
theorem before (hc : Accesses G us c) (hb : beginsApart d = true) (hd : constantAccesses d = []) :
    Accesses G us (c ++ d) := by
  simpa using hc.append (quiet hb hd)

theorem variable_ {frame : Slots} {bound : List String} {x : String} {slot : Slot} {op : Instr}
    (hf : Frames frame bound) (hG : ∀ {x slot}, G.lookup x = some slot → slot.storage = .global)
    (hx : (frame.lookup x).or (G.lookup x) = some slot) (hop : op = .load ∨ op = .store) :
    Accesses G (if x ∈ bound then [] else [(x, op)]) [addressOf slot, op] := by
  have hbegins : beginsApart [addressOf slot, op] = true := by
    rw [addressOf]
    split <;> rfl
  refine ⟨hbegins, ?_⟩
  rcases Option.or_eq_some_iff.1 hx with hframe | ⟨hframe, hglobal⟩
  · have hbound : x ∈ bound := by
      by_contra hbound
      cases hframe.symm.trans (hf.mem.2 hbound)
    rw [if_pos hbound, addressOf, if_neg (hf.inner hframe)]
    rcases hop with rfl | rfl <;> exact .nil
  · rw [if_neg (hf.mem.1 hframe), addressOf, if_pos (hG hglobal)]
    rcases hop with rfl | rfl <;> exact .cons ⟨rfl, slot, hglobal, rfl⟩ .nil

end Accesses

/-- The uses in an alternative are those in its parts. -/
theorem accesses_if {G : Slots} {us vs ws : List (String × Instr)} {i th el en : Nat}
    {ce ca cb : List Item} (he : Accesses G us (Item.flatList ce))
    (ha : Accesses G vs (Item.flatList ca)) (hb : Accesses G ws (Item.flatList cb)) :
    Accesses G (us ++ vs ++ ws) (Item.flatList (ifItems i th el en ce ca cb)) := by
  have hcode := (((he.behind (c := [.label (numbered "if" i)]) rfl rfl).append
    (ha.behind (c := [.jumpz (numbered "else" el), .label (numbered "then" th)]) rfl rfl)).append
    (hb.behind (c := [.jump (numbered "endif" en), .label (numbered "else" el)]) rfl rfl)).before
    (d := [.label (numbered "endif" en)]) rfl rfl
  simpa [ifItems] using hcode

mutual

/-- **Code loads and stores at the addresses of the variables that the expression uses.** -/
theorem codes_accesses {G : Slots}
    (hG : ∀ {x slot}, G.lookup x = some slot → slot.storage = .global) :
    ∀ {frame : Slots} {bound : List String} {e : Expr} {c : List Item}, Frames frame bound →
    Codes G frame e c → Accesses G (globalUses bound e) (Item.flatList c)
  | _, _, _, _, _, .number => .quiet rfl rfl
  | _, _, _, _, hf, .unary ha => by
    rw [flatList_append]
    exact (codes_accesses hG hf ha).before rfl rfl
  | _, _, _, _, hf, .binary ha hb => by
    rw [flatList_append, flatList_append]
    exact ((codes_accesses hG hf ha).append (codes_accesses hG hf hb)).before rfl rfl
  | _, _, _, _, hf, .assign ha hx => by
    rw [flatList_append]
    exact (codes_accesses hG hf ha).append (.variable_ hf hG hx (.inr rfl))
  | _, _, _, _, hf, .var hx => .variable_ hf hG hx (.inl rfl)
  | _, _, _, _, hf, .last ha => by
    rw [globalUses, globalUsesOfAll, globalUsesOfAll, List.append_nil]
    exact codes_accesses hG hf ha
  | _, _, _, _, hf, .before ha hs => by
    rw [flatList_append, flatList_instr]
    exact (codes_accesses hG hf ha).append ((codes_accesses hG hf hs).behind (c := [.pop]) rfl rfl)
  | _, _, _, _, hf, .ifThen he ha hb =>
    accesses_if (codes_accesses hG hf he) (codes_accesses hG hf ha) (codes_accesses hG hf hb)
  | _, _, _, _, hf, .ifOnly he ha =>
    accesses_if (codes_accesses hG hf he) (codes_accesses hG hf ha) (.quiet rfl rfl)
  | _, _, _, _, hf, @Codes.whileDo _ _ _ _ _ _ _ wh en he ha => by
    have hcode := (((codes_accesses hG hf he).behind
      (c := [.loadc (.int 0), .label (numbered "while" wh)]) rfl rfl).append
      ((codes_accesses hG hf ha).behind
        (c := [.jumpz (numbered "end_while" en), .pop]) rfl rfl)).before
      (d := [.jump (numbered "while" wh), .label (numbered "end_while" en)]) rfl rfl
    simpa [globalUses] using hcode
  | _, _, _, _, hf, @Codes.loop _ _ _ _ _ _ _ lo en hn ha => by
    have hcode := (((codes_accesses hG hf hn).behind (c := [.loadc (.int 0)]) rfl rfl).append
      ((codes_accesses hG hf ha).behind
        (c := [.label (numbered "loop" lo), .dup, .jumpz (numbered "endloop" en), .unary .dec,
          .swap, .pop]) rfl rfl)).before
      (d := [.swap, .jump (numbered "loop" lo), .label (numbered "endloop" en), .pop]) rfl rfl
    simpa [globalUses] using hcode
  | _, _, _, _, hf, @Codes.doWhile _ _ _ _ _ _ _ dw en ha he => by
    have hcode := (((codes_accesses hG hf ha).behind
      (c := [.label (numbered "dowhile" dw)]) rfl rfl).append (codes_accesses hG hf he)).before
      (d := [.jumpz (numbered "enddowhile" en), .jump (numbered "dowhile" dw),
        .label (numbered "enddowhile" en)]) rfl rfl
    simpa [globalUses] using hcode
  | _, _, _, _, _, @Codes.proc _ _ _ params locals _ _ pr en hb => by
    have hcode := ((codes_accesses hG (.proc params locals) hb).behind
      (c := [.jump (numbered "endproc" en), .label (numbered "proc" pr), .enter,
        .alloc (.int (localBytes (procFrame params locals)))]) rfl rfl).before
      (d := [.loadrc (.int (-16)), .store, .pop, .ret, .label (numbered "endproc" en),
        .loadc (numbered "proc" pr)]) rfl rfl
    simpa [globalUses] using hcode
  | _, _, _, _, hf, @Codes.call _ _ _ _ args _ _ hargs hc => by
    have hcode := ((codesArgs_accesses hG hf hargs).append
      ((codes_accesses hG hf hc).behind (c := [.mark]) rfl rfl)).before
      (d := [.call, .pop, .slide (.int (8 * (args.length : Int) - 8))]) rfl rfl
    simpa [globalUses] using hcode

theorem codesArgs_accesses {G : Slots}
    (hG : ∀ {x slot}, G.lookup x = some slot → slot.storage = .global) :
    ∀ {frame : Slots} {bound : List String} {es : List Expr} {c : List Item},
    Frames frame bound → CodesArgs G frame es c →
    Accesses G (globalUsesReversed bound es) (Item.flatList c)
  | _, _, _, _, _, .nil => .quiet rfl rfl
  | _, _, _, _, hf, .cons ha hs => by
    rw [flatList_append]
    exact (codesArgs_accesses hG hf hs).append (codes_accesses hG hf ha)

end

/-! ## Compiled expressions -/

theorem valueOrZero_accesses {e : Option Expr} {s t : GenState} {c : List Item}
    (h : (valueOrZero [] e).Gives s c t)
    (hG : ∀ {x slot}, t.globals.lookup x = some slot → slot.storage = .global) :
    List.Forall₂ (Locates t.globals) (globalUsesOfAny [] e) (constantAccesses (Item.flatList c)) := by
  cases e with
  | none =>
    obtain ⟨rfl, rfl⟩ := gives_pure.1 h
    exact .nil
  | some e => exact (codes_accesses hG .nil (value_codes [] e h fun _ _ => id)).places

theorem compile_extends (e : Option Expr) (s : GenState) :
    Extends (fun x => (x, .store) ∈ globalUsesOfAny [] e) { s with globals := [] }
      ((compile .cma e).run.run s : Except GenFault Compiled × GenState).2 := by
  have hcode : (codeBy MaMa.ascending .cma e).Extends
      fun x => (x, .store) ∈ globalUsesOfAny [] e :=
    extends_of_steps (F := fun _ => True) <| (valueOrZero_steps .nil e
      (fun _ _ => .all fun _ => trivial) fun _ => id).bind fun _ => .pure _
  have hrest := hcode.bind fun code =>
    (show Gen.Extends _ (do return Compiled.mk code (← get).globals) from fun _ => .of_eq rfl rfl)
  exact hrest { s with globals := [] }

/-- **Global variables are laid out one behind the other, in the room that is made for them.**
    Whether code could be generated or not, the variables that were given a place are assigned to
    outside of the procedures that have a variable of that name; their places are eight bytes each,
    and follow one another from the state of the counter on.  The code loads and stores them at
    these places.  A program makes room for as many bytes as they take. -/
theorem globals_laid_out (e : Option Expr) (s : GenState) :
    let r : Except GenFault Compiled × GenState := (compile .cma e).run.run s
    LaidOut s.next r.2 ∧
    (r.2.globals.Pairwise fun b c => b.2.address + 8 ≤ c.2.address) ∧
    (∀ b ∈ r.2.globals, (b.1, .store) ∈ globalUsesOfAny [] e) ∧
    (∀ b ∈ r.2.globals, s.next ≤ b.2.address ∧
      b.2.address + 8 ≤ s.next + (8 * r.2.globals.length : Nat)) ∧
    ∀ c, r.1 = .ok c → c.globals = r.2.globals ∧
      (∃ P, instructions? c.code = some P ∧
        List.Forall₂ (Locates c.globals) (globalUsesOfAny [] e) (constantAccesses P)) ∧
      ∀ text, c.program .cma = .ok text →
        reserveLine (8 * c.globals.length) ++ ['\n'] <:+: text.toList := by
  intro r
  have hext := compile_extends e s
  have hlaid : LaidOut s.next r.2 := hext.laid ⟨by simp, by simp, by simp⟩
  refine ⟨hlaid, hlaid.apart, fun b hb => ?_, by simpa using hlaid.inside, fun c hc => ?_⟩
  · exact (hext.added b.1 (List.mem_map_of_mem hb)).resolve_left (by simp)
  · have hgives : (compile .cma e).Gives s c r.2 := Prod.ext hc rfl
    obtain ⟨is, hv, rfl⟩ := compileOption_gives hgives
    refine ⟨rfl, ⟨_, instructions?_cells is, ?_⟩, fun text htext => ?_⟩
    · exact valueOrZero_accesses hv hlaid.global_of_lookup
    · rw [Compiled.program] at htext
      cases hasm : ExprLang.assemble .cma (.block (Item.cells is)) with
      | error f => rw [hasm] at htext; cases htext
      | ok code =>
        rw [hasm] at htext
        cases htext
        exact program_reserves code _

/-- `{f = proc (x) -> g = x; f(g)}`: the variable `g` is given its place inside of the procedure,
    and `x` is given none. -/
theorem globals_laid_out_procedure :
    let p : Pos := ⟨[], 1, 1⟩
    let e := Expr.sequence p [
      .assign p (.var p "f") (.proc p ["x"] [] (.assign p (.var p "g") (.var p "x"))),
      .call p (.var p "f") [.var p "g"]]
    ∃ c t P, (compile .cma (some e)).Gives .initial c t ∧ LaidOut 0 t ∧
      t.globals.map Prod.fst = ["f", "g"] ∧ instructions? c.code = some P ∧
      List.Forall₂ (Locates t.globals) [("g", .store), ("f", .store), ("g", .load), ("f", .load)]
        (constantAccesses P) := by
  intro p e
  obtain ⟨hlaid, -, -, -, hcode⟩ := globals_laid_out (some e) .initial
  obtain ⟨-, ⟨P, hP, haccesses⟩, -⟩ := hcode _ rfl
  exact ⟨_, _, P, rfl, hlaid, rfl, hP, haccesses⟩

end CMa

end ExprLang
