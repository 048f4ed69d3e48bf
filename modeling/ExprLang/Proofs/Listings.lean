/-
  Listings and assembly text.

  Two texts are written from intermediate code.  The assembly text opens blocks; the listing takes
  every cell for an instruction, a block as well.  They show the same instructions exactly if there
  is no block in the code, and only the code of while loops for the CMa has one.

  * `assemblyList_eq`: the assembly text is that of the instructions, blocks opened;
  * `codes_block_iff`: the code of an expression has a block exactly if there is a while loop in it;
  * `listingLines_long`, `listingLines_wide`: a block is either refused, or shown in a line that is
    longer than that of its instruction;
  * `listing_agrees_iff` is the statement about compiled expressions.
-/
import ExprLang.Proofs.LabelUse
import Mathlib.Algebra.GroupWithZero.Nat

namespace ExprLang

/-! ## Assembly text -/

mutual

theorem assembly_eq (one : Cell → Except AsmFault String) : ∀ c : Cell,
    assembly one c = String.join <$> c.opened.mapM (assembly one)
  | .block cs => assemblyList_eq one cs
  | .null | .bool _ | .int _ | .text _ | .tuple _ => by
    rw [Cell.opened, List.mapM_cons, List.mapM_nil]
    · cases assembly one _ <;> simp [bind, Except.bind, pure, Except.pure]
    all_goals simp

/-- **The assembly text of some cells is that of their instructions**, blocks opened. -/
theorem assemblyList_eq (one : Cell → Except AsmFault String) : ∀ cs : List Cell,
    assemblyList one cs = String.join <$> (Cell.openedAll cs).mapM (assembly one)
  | [] => rfl
  | c :: cs => by
    rw [assemblyList, assembly_eq one c, assemblyList_eq one cs, Cell.openedAll, List.mapM_append]
    cases c.opened.mapM (assembly one) with
    | error f => rfl
    | ok ts =>
      cases (Cell.openedAll cs).mapM (assembly one) with
      | error f => rfl
      | ok us => simp [bind, Except.bind, pure, Except.pure]

end

/-! ## Lines of a listing -/

/-- The line of an instruction: a label stands at the margin with a colon, and all else is a
    mnemonic and its operands. -/
def Cell.line : Cell → String
  | .tuple [.text "label", name] => name.alone ++ ":"
  | .tuple [.text mnemonic] => "    " ++ mnemonic
  | .tuple (.text mnemonic :: operands) =>
    "    " ++ padded 8 mnemonic ++ ", ".intercalate (operands.map Cell.alone)
  | _ => ""

theorem listingLine?_tuple (m : String) : ∀ ops : List Cell,
    listingLine? (.tuple (.text m :: ops)) = .ok (some (Cell.tuple (.text m :: ops)).line)
  | [] => by simp [listingLine?, Cell.line, Cell.parts?, Cell.alone, pure, Except.pure]
  | [op] => by
    by_cases hm : m = "label"
    · subst hm
      rfl
    · simp [listingLine?, Cell.line, Cell.parts?, hm, mnemonicColumn, pure, Except.pure, bind,
        Except.bind]
  | _ :: _ :: _ => by
    simp [listingLine?, Cell.line, Cell.parts?, mnemonicColumn, pure, Except.pure, bind,
      Except.bind]

theorem listingLines_cons {c : Cell} {line : String} (h : listingLine? c = .ok (some line))
    (before : Option String) (cs : List Cell) :
    listingLines before (c :: cs) = (line :: ·) <$> listingLines (some line) cs := by
  simp only [listingLines, h, bind, Except.bind, Option.some_or]
  cases listingLines (some line) cs <;> rfl

theorem listingLines_tuples : ∀ {cs : List Cell} (before : Option String),
    (∀ c ∈ cs, ∃ m ops, c = .tuple (.text m :: ops)) →
    listingLines before cs = .ok (cs.map Cell.line)
  | [], _, _ => rfl
  | c :: cs, before, h => by
    obtain ⟨m, ops, rfl⟩ := h c (by simp)
    rw [listingLines_cons (listingLine?_tuple m ops),
      listingLines_tuples _ fun d hd => h d (.tail _ hd)]
    rfl

theorem listing_map {ι : Type} (cell : ι → Cell)
    (hcell : ∀ i, ∃ m ops, cell i = .tuple (.text m :: ops)) (c : List ι) :
    listing (c.map cell) = .ok ("\n".intercalate ((c.map cell).map Cell.line)) := by
  have hlines : listingLines none (c.map cell) = .ok ((c.map cell).map Cell.line) := by
    refine listingLines_tuples none fun d hd => ?_
    obtain ⟨i, -, rfl⟩ := List.mem_map.1 hd
    exact hcell i
  rw [listing, hlines]
  rfl

theorem length_intercalate (sep : String) : ∀ (line : String) (lines : List String),
    (sep.intercalate (line :: lines)).length =
      ((line :: lines).map String.length).sum + lines.length * sep.length
  | line, [] => by simp
  | line, next :: lines => by
    rw [String.intercalate_cons_cons, String.length_append, String.length_append,
      length_intercalate sep next lines]
    simp only [List.map_cons, List.sum_cons, List.length_cons, Nat.succ_mul]
    omega

/-- Texts of as many lines that are the same have the same size without line ends. -/
theorem sum_length_eq {sep : String} : ∀ {ls ms : List String}, ls.length = ms.length →
    sep.intercalate ls = sep.intercalate ms →
    (ls.map String.length).sum = (ms.map String.length).sum
  | [], [], _, _ => rfl
  | l :: ls, m :: ms, hlen, h => by
    have hsum := congrArg String.length h
    rw [length_intercalate, length_intercalate, Nat.succ.inj hlen] at hsum
    exact Nat.add_right_cancel hsum

namespace CMa

/-! ## Blocks -/

theorem listingLine?_instr (i : Instr) : listingLine? i.cell = .ok (some i.cell.line) :=
  listingLine?_tuple i.parts.1 i.parts.2

theorem listingLine?_block (i j : Item) (is : List Item) :
    listingLine? (Item.block (i :: j :: is)).cell = .error .noColumn := by
  cases i <;> rfl

theorem le_length_escape (quote c : Char) : 1 ≤ (Text.escape quote c).length := by
  unfold Text.escape
  repeat' split
  all_goals simp

theorem length_le_quoted (s : String) : s.length ≤ (Text.quoted s).length := by
  have h : ∀ cs : List Char, cs.length ≤ (cs.flatMap (Text.escape (Text.quoteFor s))).length := by
    intro cs
    induction cs with
    | nil => simp
    | cons c cs ih =>
      have := le_length_escape (Text.quoteFor s) c
      simp only [List.length_cons, List.flatMap_cons, List.length_append]
      omega
  have := h s.toList
  simp only [Text.quoted, String.length_ofList, List.length_cons, List.length_append,
    String.length_toList] at this ⊢
  omega

theorem listingLine?_number (text : String) :
    ∃ line, listingLine? (Item.block [.instr (.loadc (.text text))]).cell = .ok (some line) ∧
      (Instr.loadc (.text text)).cell.line.length < line.length := by
  refine ⟨"    " ++ (Instr.loadc (.text text)).cell.inner, rfl, ?_⟩
  have hinner : (Instr.loadc (.text text)).cell.inner =
      "(" ++ ", ".intercalate [Text.quoted "loadc", Text.quoted text] ++ ")" := rfl
  have hline : (Instr.loadc (.text text)).cell.line =
      "    " ++ padded 8 "loadc" ++ ", ".intercalate [text] := by
    simp [Instr.cell, Instr.parts, Cell.line, Cell.alone]
  have h₁ := length_le_quoted "loadc"
  have h₂ := length_le_quoted text
  rw [hline, hinner, String.intercalate_cons_cons, String.intercalate_singleton,
    String.intercalate_singleton]
  simp only [String.length_append, show (padded 8 "loadc").length = 8 by decide,
    show "loadc".length = 5 by decide, show "    ".length = 4 by decide,
    show "(".length = 1 by decide, show ")".length = 1 by decide,
    show ", ".length = 2 by decide] at h₁ ⊢
  omega

inductive Body : List Item → Prop where
  | number (text : String) : Body [.instr (.loadc (.text text))]
  | more (i j : Item) (is : List Item) : Body (i :: j :: is)

theorem Body.ne_nil {c : List Item} (h : Body c) : c ≠ [] := by
  cases h <;> simp

theorem Body.append {c d : List Item} (hc : c ≠ []) (hd : d ≠ []) : Body (c ++ d) := by
  obtain ⟨i, c, rfl⟩ := List.exists_cons_of_ne_nil hc
  obtain ⟨j, d, rfl⟩ := List.exists_cons_of_ne_nil hd
  cases c with
  | nil => exact .more i j d
  | cons k c => exact .more i k (c ++ j :: d)

variable {G : Slots}

theorem codes_body : ∀ {frame : Slots} {e : Expr} {c : List Item}, Codes G frame e c → Body c
  | _, _, _, .number => .number _
  | _, _, _, .last ha => codes_body ha
  | _, _, _, .unary ha | _, _, _, .assign ha _ | _, _, _, .before ha _ =>
    .append (codes_body ha).ne_nil (by simp)
  | _, _, _, .binary ha _ => .append (by simp [(codes_body ha).ne_nil]) (by simp)
  | _, _, _, .var _ => .more _ _ _
  | _, _, _, .ifThen _ _ _ | _, _, _, .ifOnly _ _ | _, _, _, .whileDo _ _ | _, _, _, .loop _ _
  | _, _, _, .doWhile _ _ | _, _, _, .proc _ | _, _, _, .call _ _ => .append (by simp) (by simp)

mutual

theorem codes_block {b : List Item} : ∀ {frame : Slots} {e : Expr} {c : List Item},
    Codes G frame e c → .block b ∈ c → ∃ frame a, Codes G frame a b
  | _, _, _, .number, h | _, _, _, .var _, h => by simp at h
  | _, _, _, .last ha, h => codes_block ha h
  | _, _, _, .unary ha, h | _, _, _, .assign ha _, h | _, _, _, .proc ha, h =>
    codes_block ha (by simpa using h)
  | _, _, _, .binary ha hb, h | _, _, _, .before ha hb, h | _, _, _, .loop ha hb, h
  | _, _, _, .doWhile ha hb, h => by
    simp only [List.mem_append, List.mem_cons, reduceCtorEq, List.not_mem_nil, or_false,
      false_or] at h
    rcases h with h | h
    · exact codes_block ha h
    · exact codes_block hb h
  | _, _, _, .ifThen he ha hb, h => by
    simp only [ifItems, List.cons_append, List.mem_append, List.mem_cons, reduceCtorEq,
      List.not_mem_nil, or_false, false_or] at h
    rcases h with (h | h) | h
    · exact codes_block he h
    · exact codes_block ha h
    · exact codes_block hb h
  | _, _, _, .ifOnly he ha, h => by
    simp only [ifItems, List.mem_append, List.mem_cons, reduceCtorEq, List.not_mem_nil, or_false,
      false_or] at h
    rcases h with h | h
    · exact codes_block he h
    · exact codes_block ha h
  | _, _, _, .whileDo he ha, h => by
    simp only [List.mem_append, List.mem_cons, reduceCtorEq, List.not_mem_nil, or_false,
      false_or] at h
    rcases h with h | h
    · exact codes_block he h
    · cases h
      exact ⟨_, _, ha⟩
  | _, _, _, .call hargs hf, h => by
    simp only [List.mem_append, List.mem_cons, reduceCtorEq, List.not_mem_nil, or_false,
      false_or] at h
    rcases h with h | h
    · exact codesArgs_block hargs h
    · exact codes_block hf h

theorem codesArgs_block {b : List Item} : ∀ {frame : Slots} {es : List Expr} {c : List Item},
    CodesArgs G frame es c → .block b ∈ c → ∃ frame a, Codes G frame a b
  | _, _, _, .nil, h => by simp at h
  | _, _, _, .cons ha hs, h => by
    rcases List.mem_append.1 h with h | h
    · exact codesArgs_block hs h
    · exact codes_block ha h

end

mutual

/-- **Code has a block exactly if there is a while loop in the expression.** -/
theorem codes_block_iff : ∀ {frame : Slots} {e : Expr} {c : List Item}, Codes G frame e c →
    ((∃ b, .block b ∈ c) ↔ e.Has Expr.IsWhile)
  | _, _, _, .number | _, _, _, .var _ => by
    rw [Expr.has_iff]
    simp [Expr.IsWhile, Expr.parts]
  | _, _, _, .last ha | _, _, _, .unary ha | _, _, _, .assign ha _ | _, _, _, .proc ha => by
    rw [Expr.has_iff]
    simpa [Expr.IsWhile, Expr.parts] using codes_block_iff ha
  | _, _, _, .binary ha hb | _, _, _, .loop ha hb | _, _, _, .ifOnly ha hb => by
    rw [Expr.has_iff]
    simp [ifItems, Expr.IsWhile, Expr.parts, exists_or, codes_block_iff ha, codes_block_iff hb]
  | _, _, _, .doWhile ha he => by
    rw [Expr.has_iff]
    simp [Expr.IsWhile, Expr.parts, exists_or, codes_block_iff ha, codes_block_iff he, or_comm]
  | _, _, _, .before ha hs => by
    have hs' := codes_block_iff hs
    rw [Expr.has_iff] at hs' ⊢
    simp only [Expr.IsWhile, Expr.parts, false_or] at hs' ⊢
    simp [exists_or, codes_block_iff ha, hs']
  | _, _, _, .ifThen he ha hb => by
    rw [Expr.has_iff]
    simp [ifItems, Expr.IsWhile, Expr.parts, exists_or, codes_block_iff he, codes_block_iff ha,
      codes_block_iff hb]
  | _, _, _, .whileDo he ha => by
    rw [Expr.has_iff]
    simp [Expr.IsWhile]
  | _, _, _, .call hargs hf => by
    rw [Expr.has_iff]
    simp [Expr.IsWhile, Expr.parts, exists_or, codesArgs_block_iff hargs, codes_block_iff hf,
      or_comm]

theorem codesArgs_block_iff : ∀ {frame : Slots} {es : List Expr} {c : List Item},
    CodesArgs G frame es c → ((∃ b, .block b ∈ c) ↔ ∃ a ∈ es, a.Has Expr.IsWhile)
  | _, _, _, .nil => by simp
  | _, _, _, .cons ha hs => by
    simp [exists_or, codes_block_iff ha, codesArgs_block_iff hs, or_comm]

end

/-! ## Listings of CMa code -/

theorem cells_of_no_block : ∀ {is : List Item}, (∀ b, .block b ∉ is) →
    Item.cells is = (Item.flatList is).map Instr.cell
  | [], _ => rfl
  | .instr i :: is, h => by
    rw [Item.cells, flatList_instr, List.map_cons,
      cells_of_no_block fun b hb => h b (.tail _ hb)]
    rfl
  | .block b :: _, h => absurd (by simp) (h b)

def Item.isBlock : Item → Bool
  | .block _ => true
  | .instr _ => false

/-- Code in which every block is a number is listed with as many lines as it has instructions, and
    for every block, a line is longer than that of the instruction.  Other code is refused. -/
theorem listingLines_cells : ∀ {c : List Item} (before : Option String),
    (∀ b, .block b ∈ c → Body b) →
    (∃ lines, listingLines before (Item.cells c) = .ok lines ∧
      (∀ i j is, .block (i :: j :: is) ∉ c) ∧ lines.length = (Item.flatList c).length ∧
      ((Item.flatList c).map fun i => i.cell.line.length).sum + c.countP Item.isBlock ≤
        (lines.map String.length).sum) ∨
    ((∃ f, listingLines before (Item.cells c) = .error f) ∧ ∃ i j is, .block (i :: j :: is) ∈ c)
  | [], _, _ => .inl ⟨[], rfl, by simp⟩
  | .instr i :: c, before, hb => by
    rw [Item.cells, Item.cell, listingLines_cons (listingLine?_instr i)]
    rcases listingLines_cells (some i.cell.line) fun b h => hb b (.tail _ h) with
      ⟨lines, hl, hshort, hlen, hsum⟩ | ⟨⟨f, hf⟩, i', j, is, h⟩
    · refine .inl ⟨_, by rw [hl]; rfl, by simpa using hshort, by simp [hlen], ?_⟩
      simp [Item.isBlock]
      omega
    · exact .inr ⟨⟨f, by rw [hf]; rfl⟩, i', j, is, .tail _ h⟩
  | .block b :: c, before, hb => by
    cases hb b (by simp) with
    | more i j is =>
      refine .inr ⟨⟨.noColumn, ?_⟩, i, j, is, by simp⟩
      rw [Item.cells, listingLines, listingLine?_block]
      rfl
    | number text =>
      obtain ⟨line, hline, hlong⟩ := listingLine?_number text
      rw [Item.cells, listingLines_cons hline]
      rcases listingLines_cells (some line) fun b h => hb b (.tail _ h) with
        ⟨lines, hl, hshort, hlen, hsum⟩ | ⟨⟨f, hf⟩, i', j, is, h⟩
      · refine .inl ⟨_, by rw [hl]; rfl, by simpa using hshort, by simp [hlen], ?_⟩
        simp [List.countP_cons, Item.isBlock]
        omega
      · exact .inr ⟨⟨f, by rw [hf]; rfl⟩, i', j, is, .tail _ h⟩

theorem mem_cells_block : ∀ {c : List Item} {cs : List Cell},
    .block cs ∈ Item.cells c ↔ ∃ b, .block b ∈ c ∧ Item.cells b = cs
  | [], _ => by simp [Item.cells]
  | .instr i :: c, cs => by
    simp [Item.cells, Item.cell, Instr.cell, mem_cells_block (c := c)]
  | .block b :: c, cs => by
    simp [Item.cells, Item.cell, mem_cells_block (c := c), or_and_right, exists_or, eq_comm]

theorem length_cells (c : List Item) : (Item.cells c).length = c.length := by
  induction c with
  | nil => rfl
  | cons _ _ ih => exact congrArg (· + 1) ih

theorem listing_of_no_block {c : List Item} (h : ∀ b, .block b ∉ c) :
    listing (Item.cells c) =
      .ok ("\n".intercalate ((Cell.openedAll (Item.cells c)).map Cell.line)) := by
  rw [openedAll_cells, cells_of_no_block h]
  exact listing_map Instr.cell (fun i => ⟨_, _, rfl⟩) _

/-- **Code is listed instruction by instruction exactly if it has no block**, and it cannot be
    listed at all exactly if some block is more than a number. -/
theorem listing_cells {c : List Item} (hb : ∀ b, .block b ∈ c → Body b) :
    (listing (Item.cells c) =
        .ok ("\n".intercalate ((Cell.openedAll (Item.cells c)).map Cell.line)) ↔
      ∀ b, .block b ∉ c) ∧
    ((∃ f, listing (Item.cells c) = .error f) ↔
      ∃ cs, .block cs ∈ Item.cells c ∧ 1 < cs.length) := by
  rcases listingLines_cells none hb with ⟨lines, hl, hshort, hlen, hsum⟩ | ⟨⟨f, hf⟩, i, j, is, hmem⟩
  · have hlisting : listing (Item.cells c) = .ok ("\n".intercalate lines) := by
      rw [listing, hl]
      rfl
    refine ⟨⟨fun h b hmem => ?_, listing_of_no_block⟩, ?_, ?_⟩
    · -- Of two texts with as many lines, the one with the longer lines is longer.
      rw [hlisting, openedAll_cells, List.map_map] at h
      have heq := sum_length_eq (by simp [hlen]) (Except.ok.inj h)
      have hpos : 0 < c.countP Item.isBlock := List.countP_pos_iff.2 ⟨.block b, hmem, rfl⟩
      simp only [List.map_map, Function.comp_def] at heq
      omega
    · rintro ⟨f, hf⟩
      rw [hlisting] at hf
      cases hf
    · rintro ⟨cs, hcs, hlong⟩
      obtain ⟨b, hmem, rfl⟩ := mem_cells_block.1 hcs
      rw [length_cells] at hlong
      cases hb b hmem with
      | number text => simp at hlong
      | more i j is => exact absurd hmem (hshort i j is)
  · have hlisting : listing (Item.cells c) = .error f := by
      rw [listing, hf]
      rfl
    refine ⟨⟨fun h => ?_, listing_of_no_block⟩, fun _ => ?_, fun _ => ⟨f, hlisting⟩⟩
    · rw [hlisting] at h
      cases h
    · exact ⟨_, mem_cells_block.2 ⟨_, hmem, rfl⟩, by simp [length_cells]⟩

theorem assemble_cell (i : Instr) : assemble i.cell = .ok i.text := by
  show cellText i.cell = _
  rw [cellText, Instr.ofCell?_cell]
  rfl

/-- The blocks in the code of an expression are code, and there are any exactly if there is a while
    loop in it. -/
theorem valueOrZero_blocks {e : Option Expr} {is : List Item} {s t : GenState}
    (h : (valueOrZero [] e).Gives s is t) :
    (∀ b, .block b ∈ is → Body b) ∧ ((∃ b, .block b ∈ is) ↔ ∃ a ∈ e, a.Has Expr.IsWhile) := by
  cases e with
  | none =>
    obtain ⟨rfl, rfl⟩ := Gen.gives_pure.1 h
    simp
  | some a =>
    have hcodes := value_codes (G := t.globals) [] a h fun _ _ => id
    refine ⟨fun b hb => ?_, by simpa using codes_block_iff hcodes⟩
    obtain ⟨frame, a', hb'⟩ := codes_block hcodes hb
    exact codes_body hb'

end CMa

/-! ## Texts of MaMa instructions -/

namespace MaMa

open Gen

theorem text_eq_ok_iff (i : Instr) : (∃ t, i.text = .ok t) ↔
    match i with
    | .mkvec n | .alloc n => n.int?.isSome
    | _ => True := by
  cases i with
  | mkvec n | alloc n =>
    cases h : n.int? <;> simp [Instr.text, Instr.body, h, bind, Except.bind, pure, Except.pure,
      throw, throwThe, MonadExceptOf.throw]
  | binary op => cases op <;> exact iff_of_true ⟨_, rfl⟩ trivial
  | _ => exact iff_of_true ⟨_, rfl⟩ trivial

theorem assemble_cell (i : Instr) : assemble i.cell = i.text := by
  show cellText i.cell = _
  rw [cellText, Instr.ofCell?_cell]

/-- **Generated code has an assembly text.** -/
theorem codeOrZeroBy_text {order : CaptureOrder} {want : Want} {e : Option Expr} {c : List Instr}
    {s t : GenState} (h : (codeOrZeroBy order want [] 0 e).Gives s c t) :
    ∀ i ∈ c, ∃ t, i.text = .ok t := by
  have hn : ∀ a ∈ e, a.Numbers fun _ => True := fun _ _ _ _ => trivial
  have hformed := codeOrZeroBy_formed (P := fun _ => True) h hn fun _ _ => trivial
  intro i hi
  rw [text_eq_ok_iff]
  have hi := List.forall_iff_forall_mem.1 hformed i hi
  cases i with
  | mkvec n | alloc n =>
    obtain ⟨k, rfl⟩ := hi
    rfl
  | _ => trivial

end MaMa

/-! ## Compiled expressions -/

theorem assemble_instructions {ι : Type} {cell : ι → Cell} {vm : Vm} {code : List Cell}
    {c : List ι} (hcode : Cell.openedAll code = c.map cell)
    (h : ∀ i ∈ c, ∃ t, assemble vm (cell i) = .ok t) :
    ∃ texts, (Cell.openedAll code).mapM (assemble vm) = .ok texts ∧
      assemble vm (.block code) = .ok (String.join texts) := by
  have hblock : assemble vm (.block code) =
      String.join <$> (Cell.openedAll code).mapM (assemble vm) := by
    cases vm <;> exact assemblyList_eq _ code
  suffices hm : ∃ texts, (c.map cell).mapM (assemble vm) = .ok texts by
    obtain ⟨texts, hm⟩ := hm
    rw [hblock, hcode, hm]
    exact ⟨texts, rfl, rfl⟩
  clear hcode
  induction c with
  | nil => exact ⟨[], rfl⟩
  | cons i c ih =>
    obtain ⟨t, ht⟩ := h i (by simp)
    obtain ⟨texts, hts⟩ := ih fun j hj => h j (.tail _ hj)
    refine ⟨t :: texts, ?_⟩
    rw [List.map_cons, List.mapM_cons, ht, hts]
    rfl

/-- **What the listing and the assembly text of compiled code have in common.**  The assembly text
is that of the instructions, one after the other.  The listing has one line for each of them, in the
same order, exactly if the code is for the MaMa or there is no while loop in the expression.  It
fails exactly if some block, the body of such a loop, is more than one cell. -/
theorem listing_agrees_iff {order : MaMa.CaptureOrder} {vm : Vm} {e : Option Expr} {c : Compiled}
    {s t : GenState} (h : (compileBy order vm e).Gives s c t) :
    (∃ texts, (Cell.openedAll c.code).mapM (assemble vm) = .ok texts ∧
      assemble vm (.block c.code) = .ok (String.join texts)) ∧
    (listing c.code = .ok ("\n".intercalate ((Cell.openedAll c.code).map Cell.line)) ↔
      vm = .mama ∨ ∀ a ∈ e, ¬ a.Has Expr.IsWhile) ∧
    ((∃ f, listing c.code = .error f) ↔ ∃ cs, .block cs ∈ c.code ∧ 1 < cs.length) := by
  have hcode := compileBy_gives h
  cases vm with
  | cma =>
    obtain ⟨is, _, his, hcs⟩ := Gen.gives_bind.1 hcode
    obtain ⟨hc, rfl⟩ := Gen.gives_pure.1 hcs
    obtain ⟨hbody, hwhile⟩ := CMa.valueOrZero_blocks his
    obtain ⟨hagree, hfail⟩ := CMa.listing_cells hbody
    rw [← hc]
    refine ⟨assemble_instructions (CMa.openedAll_cells is) fun i _ =>
      ⟨i.text, CMa.assemble_cell i⟩, ?_, hfail⟩
    rw [hagree, ← not_exists, hwhile]
    simp
  | mama =>
    obtain ⟨is, _, his, hcs⟩ := Gen.gives_bind.1 hcode
    obtain ⟨hc, rfl⟩ := Gen.gives_pure.1 hcs
    have htexts := MaMa.codeOrZeroBy_text his
    have hlisting := listing_map MaMa.Instr.cell (fun i => ⟨_, _, rfl⟩) is
    rw [← hc]
    refine ⟨assemble_instructions (MaMa.openedAll_cells is) fun i hi => ?_, ?_, ?_⟩
    · rw [assemble, MaMa.assemble_cell]
      exact htexts i hi
    · simp [hlisting, MaMa.openedAll_cells]
    · refine iff_of_false (by simp [hlisting]) ?_
      simp [MaMa.Instr.cell]

/-- `while 0 do {1; 2}`: it can be assembled, but not listed. -/
theorem listing_agrees_iff_while :
    let p : Pos := ⟨[], 1, 1⟩
    let body := Expr.sequence p [.number p "1", .number p "2"]
    ∃ c st, (compileBy MaMa.ascending .cma (some (.whileDo p (.number p "0") body))).Gives
        .initial c st ∧
      (∃ texts, (Cell.openedAll c.code).mapM (assemble .cma) = .ok texts ∧
        assemble .cma (.block c.code) = .ok (String.join texts)) ∧
      ∃ f, listing c.code = .error f := by
  intro p body
  have hc : (compileBy MaMa.ascending .cma (some (.whileDo p (.number p "0") body))).Gives
    .initial _ _ := rfl
  obtain ⟨hasm, -, hfail⟩ := listing_agrees_iff hc
  let cs : List CMa.Item :=
    [.instr (.loadc (.text "1")), .instr .pop, .instr (.loadc (.text "2"))]
  refine ⟨_, _, hc, hasm, hfail.2 ⟨CMa.Item.cells cs, CMa.mem_cells_block.2 ⟨cs, ?_, rfl⟩, ?_⟩⟩
  · simp [cs]
  · simp [cs, CMa.length_cells]

end ExprLang
