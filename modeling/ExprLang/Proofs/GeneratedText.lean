/-
  The assembly text of generated code, laid out.

  The operands of generated instructions are numbers, labels and the numerals of the program.  None
  of them has a colon or a line end in it, so every line of the text says the same after it has been
  laid out.

  * `CMa.inline_operands`, `MaMa.inline_operands`: the operands of generated code can stand in a
    line;
  * `inlineNumbers_of_parse`: so can the numbers of an expression that has been parsed;
  * `layout_keeps_lines` is the statement about compiled programs.
-/
import ExprLang.Proofs.AssemblyLines

namespace ExprLang

/-! ## Operands -/

theorem Stem.inline {name : String} (h : Stem name) : Inline name.toList := by
  intro c hc
  have hrange : 65 ≤ c.toNat ∧ c.toNat ≤ 122 := h c hc
  refine ⟨?_, ?_⟩
  · rintro rfl
    exact absurd hrange (by decide)
  · simp only [Text.isLineEnd, Bool.or_eq_false_iff, Bool.and_eq_false_iff, decide_eq_false_iff_not,
      beq_eq_false_iff_ne]
    omega

/-- Labels that were made can stand in a line. -/
theorem Fresh.inline {s t : GenState} {ls : List String} (h : Fresh s t ls) :
    ∀ l ∈ ls, Inline l.toList := by
  intro l hl
  obtain ⟨name, n, hname, rfl, -⟩ := h.made l hl
  rw [String.toList_append]
  exact hname.inline.append (inline_nat n)

def Expr.InlineNumbers (e : Expr) : Prop := e.Numbers (Inline ·.toList)

theorem CMa.inline_operands {i : Instr} (h : i.Formed (Inline ·.toList) (Inline ·.toList)) :
    ∀ v ∈ i.parts.2, v.Inline := by
  cases i with
  | label t | jump t | jumpz t =>
    obtain ⟨l, hl, rfl⟩ := h
    exact List.forall_mem_singleton.2 (Cell.inline_text hl)
  | loadrc t | alloc t =>
    obtain ⟨n, rfl⟩ := h
    exact List.forall_mem_singleton.2 (Cell.inline_int n)
  | slide t =>
    obtain ⟨n, rfl⟩ := h
    exact List.forall_mem_cons.2
      ⟨Cell.inline_int n, List.forall_mem_singleton.2 (Cell.inline_int 8)⟩
  | loadc t =>
    refine List.forall_mem_singleton.2 ?_
    cases t with
    | text s => exact Cell.inline_text (or_self_iff.1 h)
    | _ =>
      obtain ⟨n, ht⟩ := h
      exact ht ▸ Cell.inline_int n
  | _ => exact List.forall_mem_nil _

theorem MaMa.inline_operands {i : Instr} (h : i.Formed (Inline ·.toList) (Inline ·.toList)) :
    ∀ v ∈ i.parts.2, v.Inline := by
  cases i with
  | label t | jump t | jumpz t | mark t | mkfunval t =>
    obtain ⟨l, hl, rfl⟩ := h
    exact List.forall_mem_singleton.2 (Cell.inline_text hl)
  | slide t | pushloc t | pushglob t | mkvec t | alloc t | patch t =>
    obtain ⟨n, rfl⟩ := h
    exact List.forall_mem_singleton.2 (Cell.inline_int n)
  | loadc t =>
    refine List.forall_mem_singleton.2 ?_
    cases t with
    | text s => exact Cell.inline_text (or_self_iff.1 h)
    | _ =>
      obtain ⟨n, ht⟩ := h
      exact ht ▸ Cell.inline_int n
  | _ => exact List.forall_mem_nil _

/-! ## Numbers -/

/-- A digit is no colon and ends no line. -/
theorem inline_of_isDigit {cs : List Char} (h : cs.all Text.isDigit = true) : Inline cs := by
  intro c hc
  have hdigit := List.all_eq_true.1 h c hc
  constructor
  · rintro rfl
    exact absurd hdigit (by decide)
  · have hends : ∀ n ∈ [10, 11, 12, 13, 28, 29, 30, 0x85, 0x2028, 0x2029],
        Text.isDigit (Char.ofNat n) = false := by decide
    by_contra hend
    have hmem : c.toNat ∈ [10, 11, 12, 13, 28, 29, 30, 0x85, 0x2028, 0x2029] := by
      simp only [Text.isLineEnd, Bool.not_eq_false, Bool.or_eq_true, Bool.and_eq_true,
        decide_eq_true_eq, beq_iff_eq] at hend
      simp only [List.mem_cons, List.not_mem_nil, or_false]
      omega
    have hc := hends c.toNat hmem
    rw [Char.ofNat_toNat] at hc
    cases hc.symm.trans hdigit

theorem inline_of_isNumeral {s : String} (h : isNumeral s = true) : Inline s.toList := by
  obtain ⟨whole, hwhole, ⟨hs, -⟩ | ⟨fraction, hfraction, hs, -⟩⟩ := Lexeme.of_isNumeral h
  · rw [hs]
    exact inline_of_isDigit hwhole
  · rw [hs]
    exact (inline_of_isDigit hwhole).append
      (List.forall_mem_cons.2 ⟨by decide, inline_of_isDigit hfraction⟩)

theorem Tiles.isNumeral {read upTo : List Char} {ts : List Token} (h : Tiles read ts upTo)
    {s : String} (hs : ⟨.number, s⟩ ∈ ts.map Token.piece) : isNumeral s = true := by
  induction h with
  | nil => cases hs
  | cons _ hspells _ _ _ ih =>
    rcases List.mem_cons.1 hs with hs | hs
    · rw [← hs] at hspells
      cases hspells with
      | plain hvalid => exact hvalid
    · exact ih hs

namespace Expr

theorem hasNode_of_part {e a : Expr} (ha : a ∈ e.parts) : e.HasNode a := by
  cases e with
  | assign p x b => exact HasNode.self.child (List.mem_append_right _ ha)
  | letIn p bs b =>
    rcases List.mem_append.1 ha with ha | ha
    · obtain ⟨b, hb, rfl⟩ := List.mem_map.1 ha
      refine .of_child (List.mem_append_left _ (List.mem_map_of_mem hb)) (HasNode.self.child ?_)
      exact List.mem_append_right _ (.head _)
    · exact HasNode.self.child (List.mem_append_right _ ha)
  | struct p fs parent =>
    rcases List.mem_append.1 ha with ha | ha
    · obtain ⟨f, hf, rfl⟩ := List.mem_map.1 ha
      refine .of_child (List.mem_append_right _ (List.mem_map_of_mem hf)) (HasNode.self.child ?_)
      exact .head _
    · exact HasNode.self.child (List.mem_append_left _ ha)
  | _ => exact HasNode.self.child ha

theorem Contains.hasNode {e x : Expr} (h : e.Contains x) : e.HasNode x := by
  induction h with
  | self => exact .self
  | part _ hx ih => exact ih.trans (hasNode_of_part hx)

theorem inlineNumbers_of_parse {text : String} {e : Expr} (h : parse text = .ok (some e)) :
    e.InlineNumbers := by
  obtain ⟨t, ht⟩ := Grammar.exists_derivation h
  obtain ⟨upTo, _, _, -, htiles, -⟩ := lex_exact text
  rintro s ⟨p, hs⟩
  exact inline_of_isNumeral (htiles.isNumeral (ht.number hs.hasNode))

end Expr

/-! ## Compiled programs -/

theorem mem_of_mapM {α β ε : Type} {f : α → Except ε β} : ∀ {as : List α} {bs : List β},
    as.mapM f = .ok bs → ∀ b ∈ bs, ∃ a ∈ as, f a = .ok b
  | [], bs, h, b, hb => by
    cases h
    cases hb
  | a :: as, bs, h, b, hb => by
    rw [List.mapM_cons] at h
    cases ha : f a with
    | error x => rw [ha] at h; cases h
    | ok b' =>
      cases has : as.mapM f with
      | error x => rw [ha, has] at h; cases h
      | ok bs' =>
        rw [ha, has] at h
        cases h
        rcases List.mem_cons.1 hb with rfl | hb
        · exact ⟨a, .head _, ha⟩
        · obtain ⟨a', ha', hb'⟩ := mem_of_mapM has b hb
          exact ⟨a', .tail _ ha', hb'⟩

/-- Instructions that all have a text of whole lines have one together. -/
theorem assemble_whole {ι : Type} {cell : ι → Cell} {vm : Vm} {code : List Cell} {c : List ι}
    (hcode : Cell.openedAll code = c.map cell)
    (h : ∀ i ∈ c, ∃ t, assemble vm (cell i) = .ok t ∧ WholeLines t) :
    ∃ asm, assemble vm (.block code) = .ok asm ∧ SaysSame asm.toList := by
  obtain ⟨texts, htexts, hasm⟩ := assemble_instructions hcode fun i hi =>
    (h i hi).imp fun _ ht => ht.1
  refine ⟨String.join texts, hasm, saysSame_join fun t ht => ?_⟩
  rw [hcode] at htexts
  obtain ⟨d, hd, hdt⟩ := mem_of_mapM htexts t ht
  obtain ⟨i, hi, rfl⟩ := List.mem_map.1 hd
  obtain ⟨t', ht', hwhole⟩ := h i hi
  rw [ht'] at hdt
  cases hdt
  exact hwhole

theorem compileBy_saysSame {order : MaMa.CaptureOrder} {vm : Vm} {e : Option Expr} {c : Compiled}
    {s t : GenState} (h : (compileBy order vm e).Gives s c t) (he : ∀ a ∈ e, a.InlineNumbers) :
    ∃ asm, assemble vm (.block c.code) = .ok asm ∧ SaysSame asm.toList := by
  have hcode := compileBy_gives h
  cases vm with
  | cma =>
    obtain ⟨is, _, his, hcs⟩ := Gen.gives_bind.1 hcode
    obtain ⟨hc, rfl⟩ := Gen.gives_pure.1 hcs
    have hlabels := (CMa.valueOrZero_emits [] e his).toFresh.inline
    have hformed := List.forall_iff_forall_mem.1 (CMa.valueOrZero_formed his he hlabels)
    rw [← hc]
    exact assemble_whole (CMa.openedAll_cells is) fun i hi =>
      ⟨i.text, CMa.assemble_cell i, CMa.whole_text (CMa.inline_operands (hformed i hi))⟩
  | mama =>
    obtain ⟨is, _, his, hcs⟩ := Gen.gives_bind.1 hcode
    obtain ⟨hc, rfl⟩ := Gen.gives_pure.1 hcs
    have hlabels := (MaMa.codeOrZeroBy_laid order e [] his).fresh.inline
    have hformed := List.forall_iff_forall_mem.1 (MaMa.codeOrZeroBy_formed his he hlabels)
    rw [← hc]
    refine assemble_whole (MaMa.openedAll_cells is) fun i hi => ?_
    obtain ⟨text, htext⟩ := MaMa.codeOrZeroBy_text his i hi
    exact ⟨text, (MaMa.assemble_cell i).trans htext,
      MaMa.whole_text htext (MaMa.inline_operands (hformed i hi))⟩

/-- **Laying out a compiled program changes nothing that it says.**  The assembly text that is laid
out has one line for each line of the text, in the same order.  Both lines have the same label, the
same mnemonic, the same operands and the same comment, up to blanks around them. -/
theorem layout_keeps_lines {order : MaMa.CaptureOrder} {vm : Vm} {text : String} {e : Option Expr}
    {c : Compiled} {s t : GenState} (hparse : parse text = .ok e)
    (h : (compileBy order vm e).Gives s c t) :
    ∃ asm, assemble vm (.block c.code) = .ok asm ∧
      List.Forall₂ (fun laid line => AsmLine.of laid = AsmLine.of line)
        (Text.lines (layout asm).toList) (Text.lines asm.toList) := by
  have he : ∀ a ∈ e, a.InlineNumbers := by
    rintro a rfl
    exact Expr.inlineNumbers_of_parse hparse
  obtain ⟨asm, hasm, hsame⟩ := compileBy_saysSame h he
  refine ⟨asm, hasm, ?_⟩
  rw [lines_layout, List.forall₂_map_left_iff, List.forall₂_same]
  exact hsame

/-- `loop 2 do 3`, compiled for the CMa: its code has labels, jumps and numbers. -/
theorem layout_keeps_lines_loop : ∃ e c st, parse "loop 2 do 3" = .ok e ∧
    (compileBy MaMa.ascending .cma e).Gives .initial c st ∧
    ∃ asm, assemble .cma (.block c.code) = .ok asm ∧
      List.Forall₂ (fun laid line => AsmLine.of laid = AsmLine.of line)
        (Text.lines (layout asm).toList) (Text.lines asm.toList) := by
  let p : Pos := ⟨[], 1, 1⟩
  have hlex : lex "loop 2 do 3" = ⟨[⟨.word .loop, "LOOP", 1, 0⟩, ⟨.number, "2", 1, 5⟩,
      ⟨.word .do_, "DO", 1, 7⟩, ⟨.number, "3", 1, 10⟩], none, 1⟩ := lex_eq (by decide +kernel)
  have hparse : parse "loop 2 do 3" = .ok (some (.loop p (.number p "2") (.number p "3"))) := by
    rw [Grammar.parse_eq_read, hlex]
    cbv
  have hc : (compileBy MaMa.ascending .cma (some (.loop p (.number p "2") (.number p "3")))).Gives
    .initial _ _ := rfl
  exact ⟨_, _, _, hparse, hc, layout_keeps_lines hparse hc⟩

end ExprLang
