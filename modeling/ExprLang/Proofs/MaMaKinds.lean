/-
  Kinds of words in MaMa code.

  Generated code keeps basic words and references apart, but for two cases: a second branch that is
  missing leaves a basic word, also where a reference is wanted; and a function that is called with
  too few arguments finds words of its caller in their places.

  * `Entry` are the words that functions may find on the stack, and `Supplied` says that there are
    references among them in the places of the parameters that are read;
  * `Emits.kept_of_supplied`: then no path gets stuck, as long as the code is sound;
  * `Emits.visits_of_entry`: the other way around, if no path gets stuck then paths come by the
    functions over all these words, which supply them;
  * `kinds_kept_iff`: the two together.
-/
import ExprLang.Proofs.MaMaOutcomes

namespace ExprLang.MaMa

open Gen

/-! ## Functions -/

abbrev Spot.function (fn : String) (params : List String) (a : Expr) : Spot :=
  ⟨.body fn params, .function params a, .label (.text fn)⟩

section
variable {order : CaptureOrder} {G : Slots} {piece : Piece} {σ : Spot} {S T : List Spot}
  {fn : String} {params : List String} {a : Expr}

/-- The code of the function among the spots, from its label to its end. -/
structure BodyAt (order : CaptureOrder) (G : Slots) (S : List Spot) (fn : String)
    (params : List String) (a : Expr) (B A : List Spot) (scope : Slots) : Prop where
  spots : ∃ C, S = B ++ Spot.function fn params a ::
    (A ++ ⟨(Frame.body fn params).push .ref, .plain, .popenv⟩ :: C)
  emits : Emits order G (.code .reference scope (.body fn params) (some a)) A
  captures : Captures a
  within : ∀ x, Free x a → Within G scope 0 x
  held_iff : ∀ u, (∀ x, Free x a → Held G scope (.atLabel (.text fn) u) x) ↔ Supplies params a u

/-- Every function among the spots has its code there. -/
def Bodied (order : CaptureOrder) (G : Slots) (S : List Spot) : Prop :=
  ∀ fn params a, Spot.function fn params a ∈ S → ∃ B A scope, BodyAt order G S fn params a B A scope

theorem Bodied.append (hS : Bodied order G S) (hT : Bodied order G T) :
    Bodied order G (S ++ T) := by
  intro fn params a h
  rcases List.mem_append.1 h with h | h
  · obtain ⟨B, A, scope, h⟩ := hS fn params a h
    obtain ⟨C, hC⟩ := h.spots
    exact ⟨B, A, scope, { h with spots := ⟨C ++ T, by simp [hC]⟩ }⟩
  · obtain ⟨B, A, scope, h⟩ := hT fn params a h
    obtain ⟨C, hC⟩ := h.spots
    exact ⟨S ++ B, A, scope, { h with spots := ⟨C, by simp [hC]⟩ }⟩

theorem bodied_nil : Bodied order G [] := nofun

theorem Bodied.cons (hσ : σ.note.isFunction = false) (hS : Bodied order G S) :
    Bodied order G (σ :: S) := by
  intro fn params a h
  rcases List.mem_cons.1 h with rfl | h
  · cases hσ
  · obtain ⟨B, A, scope, h⟩ := hS fn params a h
    obtain ⟨C, hC⟩ := h.spots
    exact ⟨σ :: B, A, scope, { h with spots := ⟨C, by simp [hC]⟩ }⟩

theorem bodied_boxing (φ : Frame) (want : Want) : Bodied order G (boxing φ want) := by
  cases want
  · exact bodied_nil
  · exact bodied_nil.cons rfl

theorem bodied_unboxing (φ : Frame) (want : Want) : Bodied order G (unboxing φ want) := by
  cases want
  · exact bodied_nil.cons rfl
  · exact bodied_nil

theorem Emits.bodied (h : Emits order G piece S) (ho : order.Lists) :
    piece.AllCapture → Bodied order G S := by
  induction h with
  | missing => exact fun _ => bodied_nil.cons rfl
  | number => exact fun _ => (bodied_boxing _ _).cons rfl
  | unary _ ih =>
    exact fun hc => (ih (hc.part (by simp [Expr.parts]))).append ((bodied_boxing _ _).cons rfl)
  | binary _ _ iha ihb =>
    exact fun hc => ((iha (hc.part (by simp [Expr.parts]))).append
      (ihb (hc.part (by simp [Expr.parts])))).append ((bodied_boxing _ _).cons rfl)
  | var _ ih => exact fun _ => (ih trivial).append (bodied_unboxing _ _)
  | ifThen i th el en _ _ _ ihe iha ihb =>
    intro hc
    have he := ihe (hc.part (by simp [Expr.parts]))
    have ha := iha (hc.part (by simp [Expr.parts]))
    have hb := ihb (hc.part (by simp +contextual [Expr.parts]))
    exact ((((he.cons rfl).append ((ha.cons rfl).cons rfl)).append
      ((hb.cons rfl).cons rfl))).append (bodied_nil.cons rfl)
  | letIn _ _ ihi iha =>
    intro hc
    have hi := ihi fun b hb => (hc _ rfl).part (List.mem_append_left _ (List.mem_map_of_mem hb))
    have ha := iha (hc.part (by simp [Expr.parts]))
    exact ((hi.cons rfl).append ha).append (bodied_nil.cons rfl)
  | call ret _ _ ihargs ihe =>
    intro hc
    have hargs := ihargs fun a ha => (hc _ rfl).part (by simp [Expr.parts, ha])
    have he := ihe (hc.part (by simp [Expr.parts]))
    exact ((hargs.cons rfl).append he).append (((bodied_unboxing _ _).cons rfl).cons rfl)
  | @lambda fn af scope φ p params a rest names _ A hnames _ hA ihx iha =>
    intro hc
    have hexact := hc _ rfl _ _ _ _ .self
    have hend : Bodied order G [⟨(Frame.body fn params).push .ref, .plain, .popenv⟩,
        ⟨φ.push .ref, .plain, .label (.text af)⟩] := (bodied_nil.cons rfl).cons rfl
    have ha := (iha (hc.part (by simp [Expr.parts]))).append hend
    -- the function itself, or one in its code
    have hself : Bodied order G (Spot.function fn params a ::
        (A ++ [⟨(Frame.body fn params).push .ref, .plain, .popenv⟩,
          ⟨φ.push .ref, .plain, .label (.text af)⟩])) := by
      intro fn' params' a' h
      rcases List.mem_cons.1 h with h | h
      · simp only [Spot.mk.injEq, Note.function.injEq, Instr.label.injEq, Cell.text.injEq] at h
        obtain ⟨-, ⟨rfl, rfl⟩, rfl⟩ := h
        exact ⟨[], A, _, ⟨_, rfl⟩, hA, (hc _ rfl).part (by simp [Expr.parts]),
          fun x hx => within_body ho hnames hexact hx, fun u => held_body_iff ho hnames hexact⟩
      · obtain ⟨B, A', scope', h⟩ := ha fn' params' a' h
        obtain ⟨C, hC⟩ := h.spots
        exact ⟨Spot.function fn params a :: B, A', scope', { h with spots := ⟨C, by simp [hC]⟩ }⟩
    have hall := (ihx trivial).append (((hself.cons
      (σ := ⟨φ.push .ref, .plain, .jump (.text af)⟩) rfl).cons
      (σ := ⟨φ.push .ref, .plain, .mkfunval (.text fn)⟩) rfl).cons
      (σ := ⟨φ.pushes (order fn names).length .ref, .plain,
        .mkvec (.int (order fn names).length)⟩) rfl)
    simpa using hall
  | noArgument | noBinding | noVariable => exact fun _ => bodied_nil
  | argument _ _ ihs iha =>
    exact fun hc => (ihs fun a ha => hc a (.tail _ ha)).append
      (iha fun a ha => Option.some.inj ha ▸ hc _ (.head _))
  | binding _ _ _ iha ihs =>
    exact fun hc => (iha fun a ha => Option.some.inj ha ▸ hc _ (.head _)).append
      ((ihs fun b hb => hc b (.tail _ hb)).cons rfl)
  | variable_ _ _ ih => exact fun _ => (ih trivial).cons rfl

end

/-- The words that the code of a function may find on the stack at its start: its arguments if it is
    entered from elsewhere, else all words of the caller.  The code outside of functions finds
    `under`. -/
inductive Entry (S : List Spot) (calls : Nat → Cell → Prop) (under : List Kind) :
    Option Cell → List Kind → Prop where
  | start : Entry S calls under none under
  | outside {fn params a} (hfn : Spot.function fn params a ∈ S) :
      Entry S calls under (some (.text fn)) (List.replicate params.length .ref)
  | call {n σ fn params a u} (hσ : S[n]? = some σ) (hi : σ.instr = .apply)
      (hc : calls n (.text fn)) (hfn : Spot.function fn params a ∈ S)
      (h : Entry S calls under σ.frame.home u) :
      Entry S calls under (some (.text fn)) (σ.frame.stack.tail ++ u)

/-- All functions find references on the stack where they read their parameters. -/
def Supplied (S : List Spot) (calls : Nat → Cell → Prop) (under : List Kind) : Prop :=
  ∀ fn params a u, Spot.function fn params a ∈ S → Entry S calls under (some (.text fn)) u →
    Supplies params a u

/-- The functions among the spots are entered from elsewhere with references as arguments. -/
def functionEntry (S : List Spot) (l : Cell) (φ : Frame) : Prop :=
  ∃ fn params a, Spot.function fn params a ∈ S ∧ l = .text fn ∧ φ = .body fn params

/-- Paths get stuck nowhere, and at the end they leave a word of the kind. -/
structure KindsKept (P : List Instr) (enters : Cell → Frame → Prop) (calls : Nat → Cell → Prop)
    (φ : Frame) (k : Kind) : Prop where
  unstuck : Unstuck P enters calls φ
  ends : ∀ ψ, Visits kinds P enters calls φ P.length ψ ↔ ψ = φ.push k

/-! ## All paths -/

section
variable {order : CaptureOrder} {G : Slots} {want : Want} {scope : Slots} {kp : Int}
  {under : List Kind} {e : Option Expr} {S : List Spot} {calls : Nat → Cell → Prop}

theorem functionEntry_of_starts {piece : Piece} (h : Emits order G piece S) :
    ∀ σ ∈ S, σ.Starts → ∀ l, σ.instr = .label l → functionEntry S l σ.frame := by
  intro σ hσ hstarts l hl
  obtain ⟨fn, params, a, rfl⟩ := (h.fits (List.Subset.refl S) σ hσ).label_of_starts hstarts
  cases hl
  exact ⟨fn, params, a, hσ, rfl, rfl⟩

theorem function_unique (hP : (labels (S.map Spot.instr)).Nodup) {fn : String}
    {params params' : List String} {a a' : Expr} (h : Spot.function fn params a ∈ S)
    (h' : Spot.function fn params' a' ∈ S) : params = params' ∧ a = a' := by
  obtain ⟨n, hn⟩ := List.mem_iff_getElem?.1 h
  have hn' := spot_of_label hP h' rfl (n := n) (by rw [List.getElem?_map, hn]; rfl)
  have hnote := congrArg Spot.note (Option.some.inj (hn.symm.trans hn'))
  simpa only [Note.function.injEq] using hnote

theorem Supplied.of_enough (hP : (labels (S.map Spot.instr)).Nodup) (m : Nat)
    (happly : ∀ σ ∈ S, σ.instr = .apply → List.replicate m .ref <+: σ.frame.stack.tail)
    (hparams : ∀ σ ∈ S, ∀ params a, σ.note = .function params a → params.length ≤ m) :
    Supplied S calls under := by
  intro fn params a u hfn hentry x j hx hj
  have hlt : j < params.length := (List.getElem?_eq_some_iff.1 (getElem?_of_lastIndex? hj)).1
  cases hentry with
  | outside hfn' =>
    cases (function_unique hP hfn hfn').1
    simp [hlt]
  | call hσ hi _ hfn' _ =>
    obtain ⟨rest, hrest⟩ := happly _ (List.mem_of_getElem? hσ) hi
    have hm := hparams _ hfn params a rfl
    rw [← hrest, List.append_assoc,
      List.getElem?_append_left (by rw [List.length_replicate]; omega),
      List.getElem?_replicate, if_pos (by omega)]

/-- Words for all functions at once: those that are given, where they may be found at all, and all
    arguments for the others. -/
theorem exists_words (hP : (labels (S.map Spot.instr)).Nodup) {home : Option Cell} {u : List Kind}
    (hu : home = none → u = under) : ∃ w : Option Cell → List Kind, w home = u ∧ w none = under ∧
      ∀ fn params a, Spot.function fn params a ∈ S → home ≠ some (.text fn) →
        w (some (.text fn)) = List.replicate params.length .ref := by
  have hwords : ∀ l : Option Cell, ∃ v : List Kind, (l = home → v = u) ∧ (l = none → v = under) ∧
      ∀ fn params a, Spot.function fn params a ∈ S → home ≠ some (.text fn) →
        l = some (.text fn) → v = List.replicate params.length .ref := by
    intro l
    by_cases hl : l = home
    · subst hl
      exact ⟨u, fun _ => rfl, hu, fun fn params a _ hne heq => absurd heq hne⟩
    · by_cases hfn : ∃ fn params a, Spot.function fn params a ∈ S ∧ l = some (.text fn)
      · obtain ⟨fn, params, a, hτ, rfl⟩ := hfn
        refine ⟨List.replicate params.length .ref, fun h => absurd h hl, nofun, ?_⟩
        intro fn' params' a' hτ' _ heq
        cases heq
        rw [(function_unique hP hτ hτ').1]
      · exact ⟨under, fun h => absurd h hl, fun _ => rfl,
          fun fn params a hτ _ heq => absurd ⟨fn, params, a, hτ, heq⟩ hfn⟩
  choose w hhome hnone hfn using hwords
  exact ⟨w, hhome home rfl, hnone none rfl, fun fn params a hτ hne => hfn _ fn params a hτ hne rfl⟩

/-- A path comes by every place, if it comes by the functions with words that supply them. -/
theorem Emits.visits_seen (h : Emits order G (.code want scope (.start kp under) e) S)
    {w : Option Cell → List Kind} {enters : Cell → Frame → Prop} (hs : ∀ σ ∈ S, σ.Strict w)
    (hnone : w none = under)
    (hfn : ∀ fn params a, Spot.function fn params a ∈ S → ∀ q,
      (S.map Spot.instr)[q]? = some (.label (.text fn)) →
        Visits kinds (S.map Spot.instr) enters calls (.start kp under) q
          (.atLabel (.text fn) (w (some (.text fn))))) :
    ∀ n ≤ S.length, Visits kinds (S.map Spot.instr) enters calls (.start kp under) n
      ((first ((Frame.start kp under).push want.kind) (S.drop n)).seen w) := by
  intro n hn
  have hstart : (first ((Frame.start kp under).push want.kind) S).seen w = .start kp under := by
    have hfirst := h.first_eq
    simp only [Piece.exit, Piece.entry] at hfirst
    rw [hfirst, Frame.seen, Frame.start, hnone]
    rfl
  have hvisits := visits_of_linked (B := []) (m := 0) (g := Frame.seen w) h.linked h.entered
    (.whole _) (fun σ hσ => (hs σ (by simpa using hσ)).follows)
    (fun q l τ hτ hstarts hl hq => by
      obtain ⟨fn, params, a, rfl⟩ := (h.fits (List.Subset.refl S) τ hτ).label_of_starts hstarts
      cases hl
      exact hfn fn params a hτ q hq) (fun j ρ hj => absurd hj (by simp))
    (by rw [Piece.exit, hstart]; exact .start) n hn
  simpa using hvisits

/-- A function that is entered over some words, and in which no path gets stuck, is supplied. -/
theorem BodyAt.supplies {fn : String} {params : List String} {a : Expr} {B A : List Spot}
    {scope' : Slots} {start : Frame} {u : List Kind} {piece : Piece}
    (hbody : BodyAt order G S fn params a B A scope') (ho : order.Lists)
    (h : Emits order G piece S)
    (hunstuck : Unstuck (S.map Spot.instr) (functionEntry S) calls start)
    (hv : Visits kinds (S.map Spot.instr) (functionEntry S) calls start B.length
      (.atLabel (.text fn) u)) : Supplies params a u := by
  obtain ⟨C, hS⟩ := hbody.spots
  have hp : Spans (S.map Spot.instr) (functionEntry S) 0 (B ++ Spot.function fn params a ::
      (A ++ ⟨(Frame.body fn params).push .ref, .plain, .popenv⟩ :: C)) S.length := by
    rw [← hS]
    exact ⟨.whole _, Nat.zero_add _, functionEntry_of_starts h⟩
  obtain ⟨m, hpB, hp⟩ := hp.append
  obtain rfl : B.length = m := by simpa using hpB.length
  obtain ⟨hlabel, hp⟩ := hp.cons
  obtain ⟨r, hpA, hp⟩ := hp.append
  obtain ⟨hpopenv, -⟩ := hp.cons
  obtain ⟨k, hvA, hk⟩ := hbody.emits.outcome (φ := .atLabel (.text fn) u) hunstuck ho
    (fun b hb => Option.some.inj hb ▸ hbody.captures) ⟨rfl, hbody.within⟩ hpA
    (.fall hv hlabel rfl rfl)
  obtain ⟨χ, hχ⟩ := hunstuck _ _ _ hvA hpopenv
  obtain ⟨-, rfl⟩ := Frame.of_exchange hχ
  exact (hbody.held_iff u).1 (hk rfl).held

/-- The function at the label finds references among the words where it reads its parameters. -/
def SuppliedAt (S : List Spot) (home : Option Cell) (u : List Kind) : Prop :=
  ∀ fn params a, Spot.function fn params a ∈ S → home = some (.text fn) → Supplies params a u

section
variable (h : Emits order G (.code want scope (.start kp under) e) S) (ho : order.Lists)
  (hP : (labels (S.map Spot.instr)).Nodup) (hc : ∀ a ∈ e, Captures a)
  (hsound : (Piece.code want scope (.start kp under) e).Sound G (.start kp under))
  {home : Option Cell} {u : List Kind}
include h ho hP hc hsound

/-- Words for all functions at once, of which those of one function are given: all instructions
    find what they need, if that function is supplied with them. -/
theorem Emits.exists_strict (hu : home = none → u = under) (hfn : SuppliedAt S home u) :
    ∃ w : Option Cell → List Kind, w home = u ∧ w none = under ∧
      (∀ fn params a, Spot.function fn params a ∈ S → home ≠ some (.text fn) →
        w (some (.text fn)) = List.replicate params.length .ref) ∧ ∀ σ ∈ S, σ.Strict w := by
  obtain ⟨w, hw, hwnone, hwfn⟩ := exists_words hP hu
  refine ⟨w, hw, hwnone, hwfn, h.strict ho hc ?_ ?_⟩
  · have hentry : (Frame.start kp under).seen w = .start kp under := by
      rw [Frame.seen, Frame.start, hwnone]
      rfl
    rwa [Piece.entry, hentry]
  · intro σ hσ params a hnote
    obtain ⟨fn, params', a', rfl⟩ :=
      (h.fits (List.Subset.refl S) σ hσ).label_of_starts (by rw [Spot.Starts, hnote]; rfl)
    cases hnote
    rw [Frame.home_body]
    by_cases heq : home = some (.text fn)
    · rw [← heq, hw]
      exact hfn fn params a hσ heq
    · rw [hwfn fn params a hσ heq]
      exact supplies_all params a

/-- If no path gets stuck, and one comes by the label of a function over some words, then the
    function is supplied with them, and a path comes by all of its code over them. -/
theorem Emits.visits_of_label
    (hunstuck : Unstuck (S.map Spot.instr) (functionEntry S) calls (.start kp under))
    (hu : home = none → u = under)
    (hv : ∀ fn q, home = some (.text fn) → (S.map Spot.instr)[q]? = some (.label (.text fn)) →
      Visits kinds (S.map Spot.instr) (functionEntry S) calls (.start kp under) q
        (.atLabel (.text fn) u)) :
    SuppliedAt S home u ∧ ∀ n σ, S[n]? = some σ → σ.frame.home = home →
      Visits kinds (S.map Spot.instr) (functionEntry S) calls (.start kp under) n
        (σ.frame.on u) := by
  have hfn : SuppliedAt S home u := by
    intro fn params a hτ hhome
    obtain ⟨B, A, scope', hbody⟩ := h.bodied ho hc fn params a hτ
    refine hbody.supplies ho h hunstuck (hv fn B.length hhome ?_)
    obtain ⟨C, hC⟩ := hbody.spots
    rw [hC, List.map_append, List.getElem?_append_right (by simp)]
    simp
  refine ⟨hfn, fun n σ hσ hhome => ?_⟩
  obtain ⟨w, hw, hwnone, hwfn, hstrict⟩ := h.exists_strict ho hP hc hsound hu hfn
  have hvisits := h.visits_seen hstrict hwnone (fun fn params a hτ q hq => by
    by_cases heq : home = some (.text fn)
    · rw [← heq, hw]
      exact hv fn q heq hq
    · rw [hwfn fn params a hτ heq]
      exact .enter hq ⟨fn, params, a, hτ, rfl, rfl⟩) n (List.getElem?_eq_some_iff.1 hσ).1.le
  rwa [first_drop hσ, Frame.seen, hhome, hw] at hvisits

/-- If no path gets stuck, one comes by the code of every function over all words that it may
    find. -/
theorem Emits.visits_of_entry
    (hunstuck : Unstuck (S.map Spot.instr) (functionEntry S) calls (.start kp under))
    (hentry : Entry S calls under home u) :
    SuppliedAt S home u ∧ ∀ n σ, S[n]? = some σ → σ.frame.home = home →
      Visits kinds (S.map Spot.instr) (functionEntry S) calls (.start kp under) n
        (σ.frame.on u) := by
  induction hentry with
  | start => exact h.visits_of_label ho hP hc hsound hunstuck (fun _ => rfl) nofun
  | outside hfn =>
    refine h.visits_of_label ho hP hc hsound hunstuck nofun fun fn q heq hq => ?_
    cases heq
    exact .enter hq ⟨_, _, _, hfn, rfl, rfl⟩
  | @call n σ fn params a u hσ hi hcall hfn _ ih =>
    refine h.visits_of_label ho hP hc hsound hunstuck nofun fun fn q heq hq => ?_
    cases heq
    have happly : (S.map Spot.instr)[n]? = some .apply := by rw [List.getElem?_map, hσ, ← hi]; rfl
    have hvn := ih.2 n σ hσ rfl
    obtain ⟨ψ, hψ⟩ := hunstuck n _ _ hvn happly
    obtain ⟨χ, hχ, -⟩ := Option.bind_eq_some_iff.1 hψ
    have hwords : σ.frame.stack.tail ++ u = χ.words := by
      have hpush := Frame.eq_push_of_take? hχ
      have hstack : σ.frame.stack = .ref :: χ.stack := congrArg Frame.stack hpush
      have hunder : u = χ.under := congrArg Frame.under hpush
      rw [hstack, hunder]
      rfl
    have hmade : .mkfunval (.text fn) ∈ S.map Spot.instr :=
      (h.fits (List.Subset.refl S) _ hfn).made_of_starts rfl rfl
    exact .call hvn happly hcall hmade (by rw [hwords]; exact congrArg (Option.map _) hχ) hq

/-- The instructions find what they need over all words that their functions may find. -/
theorem Emits.follows_of_supplied (hsupplied : Supplied S calls under) :
    ∀ σ ∈ S, ∀ u, Entry S calls under σ.frame.home u →
      (∃ ψ, σ.instr.after? (σ.frame.on u) = some ψ) ∧ Follows kinds (Frame.on · u) σ := by
  intro σ hσ u hentry
  obtain ⟨w, hw, -, -, hstrict⟩ := h.exists_strict ho hP hc hsound
    (fun hnone => by rw [hnone] at hentry; cases hentry; rfl)
    (fun fn params a hτ hhome => hsupplied fn params a u hτ (hhome ▸ hentry))
  have hseen : σ.frame.on u = σ.frame.seen w := by rw [Frame.seen, hw]
  refine ⟨?_, fun φ hφ => ?_, rfl⟩
  · obtain ⟨φ, hφ, -⟩ := hstrict σ hσ
    exact ⟨_, hseen ▸ hφ⟩
  · have hafter := (hstrict σ hσ).follows.after φ hφ
    rwa [Frame.seen, Frame.seen, hφ.home, hw] at hafter

theorem Emits.kept_of_supplied (hsupplied : Supplied S calls under) :
    KindsKept (S.map Spot.instr) (functionEntry S) calls (.start kp under) want.kind := by
  have hfollows := h.follows_of_supplied ho hP hc hsound hsupplied
  have hfirst : first ((Frame.start kp under).push want.kind) S = .start kp under := h.first_eq
  have hvisits : ∀ n φ, Visits kinds (S.map Spot.instr) (functionEntry S) calls
      (.start kp under) n φ → n ≤ S.length ∧ ∃ u,
        Entry S calls under (first ((Frame.start kp under).push want.kind) (S.drop n)).home u ∧
        φ = (first ((Frame.start kp under).push want.kind) (S.drop n)).on u := by
    intro n φ hv
    refine of_visits (g := fun u φ => φ.on u) (A := Entry S calls under) under hP h.linked h.routed
      (fun σ hσ u hu => (hfollows σ hσ u hu).2) ?_ ?_ (by rw [hfirst]; exact .start)
      (by rw [hfirst]; exact hv)
    · rintro l φ ⟨fn, params, a, hτ, rfl, rfl⟩
      exact ⟨_, hτ, fn, _, rfl, rfl, .outside hτ, rfl⟩
    · intro n l φ σ _ u hσ hi hcall hl hu hentered
      obtain ⟨fn, params, a, rfl, hτ⟩ := h.function_of_made hl
      refine ⟨_, hτ, fn, _, rfl, rfl, .call hσ hi hcall hτ hu, ?_⟩
      obtain ⟨χ, hχ, rfl⟩ := Option.map_eq_some_iff.1 hentered
      have hpush := Frame.eq_push_of_take? hχ
      have hstack : σ.frame.stack = .ref :: χ.stack := congrArg Frame.stack hpush
      have hunder : u = χ.under := congrArg Frame.under hpush
      rw [hstack, hunder]
      rfl
  constructor
  · intro n φ i hv hi
    obtain ⟨-, u, hu, rfl⟩ := hvisits n φ hv
    obtain ⟨σ, hσ, rfl⟩ := spot_at hi
    rw [first_drop hσ] at hu ⊢
    exact (hfollows σ (List.mem_of_getElem? hσ) u hu).1
  · intro φ
    rw [List.length_map]
    constructor
    · intro hv
      obtain ⟨-, u, hu, rfl⟩ := hvisits _ φ hv
      rw [List.drop_length, first_nil] at hu ⊢
      cases hu
      rfl
    · rintro rfl
      have hunder : (none : Option Cell) = none → under = under := fun _ => rfl
      obtain ⟨w, hw, -, hwfn, hstrict⟩ := h.exists_strict ho hP hc hsound hunder nofun
      have henter : ∀ fn params a, Spot.function fn params a ∈ S → ∀ q,
          (S.map Spot.instr)[q]? = some (.label (.text fn)) →
          Visits kinds (S.map Spot.instr) (functionEntry S) calls (.start kp under) q
            (.atLabel (.text fn) (w (some (.text fn)))) := by
        intro fn params a hτ q hq
        rw [hwfn fn params a hτ nofun]
        exact .enter hq ⟨fn, params, a, hτ, rfl, rfl⟩
      have hend := h.visits_seen hstrict hw henter S.length le_rfl
      rw [List.drop_length, first_nil, Frame.seen_push, Frame.seen, Frame.start, hw] at hend
      exact hend

end

end

/-- **Generated code keeps basic words and references apart if and only if no second branch is
    missing where a reference is wanted, and the functions find references on the stack where they
    read their parameters.**  Which functions a call may enter is said by `calls`. -/
theorem kinds_kept_iff {order : CaptureOrder} {want : Want} {scope : Slots} {kp : Int}
    {under : List Kind} {e : Option Expr} {s t : GenState} {c : List Instr}
    (calls : Nat → Cell → Prop) (ho : order.Lists)
    (h : (codeOrZeroBy order want scope kp e).Gives s c t) (hcaptures : ∀ a ∈ e, Captures a)
    (hheld : ∀ a ∈ e, ∀ x, Free x a → Held s.globals scope (.start kp under) x) :
    (∃ S, Emits order s.globals (.code want scope (.start kp under) e) S ∧
      S.map Spot.instr = c) ∧
    ∀ S, Emits order s.globals (.code want scope (.start kp under) e) S → S.map Spot.instr = c →
      (KindsKept c (functionEntry S) calls (.start kp under) want.kind ↔
        Whole want e ∧ Supplied S calls under) := by
  have huses : ∀ x, (Piece.code want scope (.start kp under) e).Uses x →
      Held s.globals scope (.start kp under) x := by
    intro x hx
    cases e with
    | none => cases hx
    | some a => exact hheld a rfl x hx
  have hlaid := codeOrZeroBy_laid order e under h
  refine ⟨hlaid.spots, ?_⟩
  rintro S hS rfl
  have hP := hlaid.fresh.nodup
  constructor
  · intro hkept
    obtain ⟨k, hv, hsound⟩ := hS.outcome hkept.unstuck ho hcaptures
      ⟨rfl, fun x hx => (huses x hx).within⟩
      ⟨.whole _, Nat.zero_add _, functionEntry_of_starts hS⟩ .start
    obtain ⟨-, rfl⟩ := Frame.push_inj ((hkept.ends _).1 (by simpa using hv))
    have hsound := hsound rfl
    refine ⟨hsound.whole, fun fn params a u hτ hentry => ?_⟩
    exact (hS.visits_of_entry ho hP hcaptures hsound hkept.unstuck hentry).1 fn params a hτ rfl
  · rintro ⟨hwhole, hsupplied⟩
    exact hS.kept_of_supplied ho hP hcaptures ⟨hwhole, huses⟩ hsupplied

/-- The alternative `if 0 then 1`. -/
abbrev missingElse : Expr := .ifThen sumPos (.number sumPos "0") (.number sumPos "1") none

theorem missingElse_captures : Captures missingElse := by
  intro p params a rest hf
  rcases hf.self_or_part with heq | ⟨b, hb, hf⟩
  · cases heq
  · have hnumber : Admissible b := by
      simp only [Expr.parts, Option.toList_none, List.mem_cons, List.not_mem_nil, or_false] at hb
      rcases hb with rfl | rfl
      · exact .number
      · exact .number
    exact hnumber.captures p params a rest hf

/-- The call `(\x y -> y)(1)` with one argument for two parameters. -/
abbrev fewArguments : Expr :=
  .call sumPos (.lambda sumPos ["x", "y"] (sumVar "y") false) [.number sumPos "1"]

theorem fewArguments_closed (x : String) : ¬ Free x fewArguments := by
  intro h
  cases h with
  | callee h =>
    cases h with
    | lambda hx h =>
      cases h
      exact hx (by decide)
  | argument ha h =>
    cases List.mem_singleton.1 ha
    cases h

theorem fewArguments_admissible : Admissible fewArguments := by
  refine .call (.lambda ⟨[], rfl, fun x => ⟨nofun, fun h => ?_⟩⟩ .var)
    (List.forall_mem_singleton.2 .number)
  exact absurd (.callee h) (fewArguments_closed x)

/-- The expression `local y = 5 in \x -> 1 + (local a = y in a)`, whose function misses `y`. -/
abbrev missedVariable : Expr :=
  .letIn sumPos [⟨sumPos, .var sumPos "y", .number sumPos "5"⟩]
    (.lambda sumPos ["x"] (.binary sumPos .plus (.number sumPos "1")
      (.letIn sumPos [⟨sumPos, .var sumPos "a", sumVar "y"⟩] (sumVar "a"))) false)

theorem missedVariable_not_kept :
    ∃ S, Emits ascending [] (.code .reference [] (.start 0 []) (some missedVariable)) S ∧
      ∀ calls, ¬ KindsKept (S.map Spot.instr) (functionEntry S) calls (.start 0 []) .ref := by
  refine ⟨_, .letIn (.binding (by decide) .number .noBinding)
    (.lambda "fun0" "after0" rfl .noVariable (.binary (o := .add) .number
      (.letIn (.binding (by decide) (.var (.variable_ rfl .noVariable)) .noBinding)
        (.var (.variable_ rfl .noVariable))))), fun calls hk => ?_⟩
  -- in the body come its label, the number and the place of `a`, and then the number is read as `y`
  obtain ⟨_, h₁, hv₁⟩ := hk.unstuck.fall (.enter (q := 7) (l := .text "fun0") rfl
    ⟨"fun0", ["x"], _, List.mem_of_getElem? (i := 7) rfl, rfl, rfl⟩) rfl rfl
  cases h₁
  obtain ⟨_, h₂, hv₂⟩ := hk.unstuck.fall hv₁ rfl rfl
  cases h₂
  obtain ⟨_, h₃, hv₃⟩ := hk.unstuck.fall hv₂ rfl rfl
  cases h₃
  obtain ⟨_, h₄, hv₄⟩ := hk.unstuck.fall hv₃ rfl rfl
  cases h₄
  obtain ⟨_, h₅⟩ := hk.unstuck _ _ _ hv₄ rfl
  cases h₅

/-- A recursive function keeps them apart, whatever is called; `if 0 then 1` does not, and neither
    do a call with too few arguments and a function that misses a variable. -/
theorem kinds_kept_iff_sum :
    (∃ S, Emits ascending [] (.code .reference [] (.start 0 []) (some sumExpr)) S ∧
      ∀ calls, KindsKept (S.map Spot.instr) (functionEntry S) calls (.start 0 []) .ref) ∧
    (∃ S, Emits ascending [] (.code .reference [] (.start 0 []) (some missingElse)) S ∧
      ∀ calls, ¬ KindsKept (S.map Spot.instr) (functionEntry S) calls (.start 0 []) .ref) ∧
    (∃ S, Emits ascending [] (.code .reference [] (.start 0 []) (some fewArguments)) S ∧
      Whole .reference (some fewArguments) ∧
      ¬ KindsKept (S.map Spot.instr) (functionEntry S) (fun _ _ => True) (.start 0 []) .ref) ∧
    ∃ S, Emits ascending [] (.code .reference [] (.start 0 []) (some missedVariable)) S ∧
      ∀ calls, ¬ KindsKept (S.map Spot.instr) (functionEntry S) calls (.start 0 []) .ref := by
  refine ⟨?_, ?_, ?_, missedVariable_not_kept⟩
  · have hgives : (codeOrZeroBy ascending .reference [] 0 (some sumExpr)).Gives .initial _ _ := rfl
    have hemits : Emits ascending [] (.code .reference [] (.start 0 []) (some sumExpr)) _ :=
      .letIn (.binding (by decide) (.lambda "fun0" "after0" rfl
        (.variable_ rfl (.variable_ rfl .noVariable))
        (.ifThen "if0" "then0" "else0" "endif0" (.var (.variable_ rfl .noVariable))
          (.binary (o := .add) (.var (.variable_ rfl .noVariable)) (.call "ret0"
            (.argument .noArgument
              (.binary (o := .sub) (.var (.variable_ rfl .noVariable)) .number))
            (.var (.variable_ rfl .noVariable)))) (.var (.variable_ rfl .noVariable))))
          (.binding (by decide) .number .noBinding))
        (.call "ret1" (.argument .noArgument .number) (.var (.variable_ rfl .noVariable)))
    refine ⟨_, hemits, fun calls => ((kinds_kept_iff calls ascending_lists hgives
      (fun a ha => Option.some.inj ha ▸ sumExpr_admissible.captures)
      (fun a ha x hx => by cases ha; exact absurd hx (sumExpr_closed x))).2 _ hemits rfl).2
      ⟨sumExpr_admissible.whole, .of_enough (by decide) 1 ?_ ?_⟩⟩
    · simp [boxing, unboxing, access]
    · simp +contextual [boxing, unboxing]
  · have hgives : (codeOrZeroBy ascending .reference [] 0 (some missingElse)).Gives .initial _ _ :=
      rfl
    have hemits : Emits ascending [] (.code .reference [] (.start 0 []) (some missingElse)) _ :=
      .ifThen "if0" "then0" "else0" "endif0" .number .number .missing
    refine ⟨_, hemits, fun calls hk => ?_⟩
    obtain ⟨hwhole, -⟩ := ((kinds_kept_iff calls ascending_lists hgives
      (fun a ha => Option.some.inj ha ▸ missingElse_captures) (fun a ha x hx => by
        cases ha
        cases hx with
        | condition h | yes h => cases h)).2 _ hemits rfl).1 hk
    cases hwhole with
    | ifThen _ _ hb => cases hb
  · have hgives : (codeOrZeroBy ascending .reference [] 0 (some fewArguments)).Gives .initial _ _ :=
      rfl
    have hemits : Emits ascending [] (.code .reference [] (.start 0 []) (some fewArguments)) _ :=
      .call "ret0" (.argument .noArgument .number)
        (.lambda "fun0" "after0" rfl .noVariable (.var (.variable_ rfl .noVariable)))
    refine ⟨_, hemits, fewArguments_admissible.whole, fun hk => ?_⟩
    obtain ⟨-, hsupplied⟩ := ((kinds_kept_iff (fun _ _ => True) ascending_lists hgives
      (fun a ha => Option.some.inj ha ▸ fewArguments_admissible.captures)
      (fun a ha x hx => by cases ha; exact absurd hx (fewArguments_closed x))).2 _ hemits rfl).1 hk
    -- in the place of `y` stands a word that the call keeps
    have hunder := hsupplied "fun0" ["x", "y"] (sumVar "y") _ (List.mem_of_getElem? (i := 6) rfl)
      (.call (n := 10) rfl rfl trivial (List.mem_of_getElem? (i := 6) rfl) .start) "y" 1 .var rfl
    cases hunder

end ExprLang.MaMa
