/-
  Code whose paths do not get stuck in MaMa.

  * `Unstuck`: wherever paths come by, the instruction finds the kinds of words that it needs;
  * `Piece.Outcome` is what a piece of such code leaves, whatever is on the stack before it;
  * `Emits.outcome`: if that is what is expected, the piece is sound.
-/
import ExprLang.Proofs.MaMaSound

namespace ExprLang.MaMa

variable {φ ψ : Frame} {k k' : Kind} {ks : List Kind}

/-- Paths get stuck nowhere: every instruction finds what it needs. -/
def Unstuck (P : List Instr) (enters : Cell → Frame → Prop) (calls : Nat → Cell → Prop)
    (start : Frame) : Prop :=
  ∀ n φ i, Visits kinds P enters calls start n φ → P[n]? = some i → ∃ ψ, i.after? φ = some ψ

theorem Frame.push_inj (h : φ.push k = ψ.push k') : φ = ψ ∧ k = k' := by
  cases φ
  cases ψ
  simp_all [Frame.push]

theorem Frame.of_take?_push (h : (φ.push k).take? k' = some ψ) :
    φ = ψ ∧ k = k' := push_inj (eq_push_of_take? h)

theorem Frame.eq_of_piled {ls : List Kind} (h : φ.piled ks = ψ.piled ls)
    (hlen : ks.length = ls.length) : φ = ψ ∧ ks = ls := by
  cases φ
  cases ψ
  simp only [Frame.piled, Frame.mk.injEq] at h ⊢
  obtain ⟨hhome, hunder, hbase, hstack, hcalls⟩ := h
  obtain ⟨hks, hs⟩ := List.append_inj hstack hlen
  exact ⟨⟨hhome, hunder, hbase, hs, hcalls⟩, hks⟩

/-- Words that are taken as references are references. -/
theorem Frame.of_takes?_piled (h : (φ.piled ks).takes? ks.length .ref = some ψ) :
    φ = ψ ∧ ∀ k ∈ ks, k = .ref := by
  have h := eq_pushes_of_takes? h
  rw [pushes_eq_piled] at h
  obtain ⟨rfl, hks⟩ := eq_of_piled h (List.length_replicate ..).symm
  exact ⟨rfl, (List.eq_replicate_iff.1 hks).2⟩

/-- A call that returns had references as arguments. -/
theorem Frame.of_return?_piled {l : Cell} (h : ((φ.mark l).piled ks).return? = some ψ) :
    ψ = φ.push .ref ∧ ∀ k ∈ ks, k = .ref := by
  obtain ⟨l', s, calls, hcalls, rfl, hstack⟩ := of_return? h
  cases hcalls
  refine ⟨rfl, ?_⟩
  have hlen : ks.length =
      ((φ.mark l).piled ks).stack.length - φ.stack.length - 3 := by
    simp only [piled, mark, stack_push, List.length_append, List.length_cons]
    omega
  obtain ⟨hks, -⟩ := List.append_inj hstack (by rwa [List.length_replicate])
  exact (List.eq_replicate_iff.1 hks).2

theorem Frame.of_exchange {k'' : Kind} (h : ((φ.push k).take? k').map (·.push k'') = some ψ) :
    ψ = φ.push k'' ∧ k = k' := by
  obtain ⟨χ, hχ, rfl⟩ := Option.map_eq_some_iff.1 h
  obtain ⟨rfl, rfl⟩ := of_take?_push hχ
  exact ⟨rfl, rfl⟩

theorem of_after?_binary {o : CMa.BinaryOp}
    (h : (Instr.binary o).after? ((φ.push k).push k') = some ψ) :
    ψ = φ.push .word ∧ k = .word ∧ k' = .word := by
  obtain ⟨χ, hχ, rfl⟩ := Option.map_eq_some_iff.1 h
  obtain ⟨hpush, rfl⟩ := Frame.push_inj (Frame.eq_pushes_of_takes? hχ)
  obtain ⟨rfl, rfl⟩ := Frame.push_inj hpush
  exact ⟨rfl, rfl, rfl⟩

theorem of_after?_mkvec (h : (Instr.mkvec (.int ks.length)).after? (φ.piled ks) = some ψ) :
    ψ = φ.push .ref ∧ ∀ k ∈ ks, k = .ref := by
  obtain ⟨χ, hχ, rfl⟩ := Option.map_eq_some_iff.1 h
  obtain ⟨rfl, hks⟩ := Frame.of_takes?_piled hχ
  exact ⟨rfl, hks⟩

theorem of_after?_apply {l : Cell}
    (h : Instr.apply.after? (((φ.mark l).piled ks).push k) = some ψ) :
    ψ = φ.push .ref ∧ k = .ref ∧ ∀ k ∈ ks, k = .ref := by
  obtain ⟨χ, hχ, hreturn⟩ := Option.bind_eq_some_iff.1 h
  obtain ⟨rfl, rfl⟩ := Frame.of_take?_push hχ
  obtain ⟨rfl, hks⟩ := Frame.of_return?_piled hreturn
  exact ⟨rfl, rfl, hks⟩

theorem of_after?_patch {c : Cell} (h : (Instr.patch c).after? (φ.push k) = some ψ) :
    φ = ψ ∧ k = .ref := by
  obtain ⟨n, -, h⟩ := Option.bind_eq_some_iff.1 h
  split at h
  · exact Frame.of_take?_push h
  · cases h

/-- A variable is pushed with the kind that it has on the stack. -/
theorem of_after?_access {χ : Frame} {slot : Slot} (hlevel : φ.level = χ.level)
    (h : (access χ slot).after? φ = some ψ) :
    ∃ k, ψ = φ.push k ∧ (slot.storage = .local_ → φ.Holds slot.address k) := by
  rw [access] at h
  split at h
  · obtain ⟨n, hn, h⟩ := Option.bind_eq_some_iff.1 h
    obtain ⟨k, hk, rfl⟩ := Option.map_eq_some_iff.1 h
    refine ⟨k, rfl, fun _ => ⟨n, ?_, hk⟩⟩
    rw [hlevel]
    exact Cell.int.inj (natural?_eq hn)
  · rename_i hs
    cases h
    exact ⟨.ref, rfl, fun hlocal => absurd hlocal hs⟩

section
variable {P : List Instr} {enters : Cell → Frame → Prop} {calls : Nat → Cell → Prop}
  {start φ ψ : Frame} {S T : List Spot} {σ : Spot} {i : Instr} {l : Cell} {m n q : Nat}

/-- The code of the spots stands between the places, and its functions are entered with all their
    arguments. -/
structure Spans (P : List Instr) (enters : Cell → Frame → Prop) (n : Nat) (S : List Spot)
    (q : Nat) : Prop where
  placed : Placed P n (S.map Spot.instr)
  length : n + S.length = q
  entered : ∀ σ ∈ S, σ.Starts → ∀ l, σ.instr = .label l → enters l σ.frame

theorem Spans.nil (h : Spans P enters n [] q) : n = q := h.length

theorem Spans.append (h : Spans P enters n (S ++ T) q) :
    ∃ m, Spans P enters n S m ∧ Spans P enters m T q := by
  obtain ⟨hp, rfl, he⟩ := h
  rw [List.map_append] at hp
  rw [List.forall_mem_append] at he
  exact ⟨n + S.length, ⟨hp.left, rfl, he.1⟩, by simpa using hp.right, by simp [Nat.add_assoc], he.2⟩

theorem Spans.cons (h : Spans P enters n (σ :: S) q) :
    P[n]? = some σ.instr ∧ Spans P enters (n + 1) S q := by
  obtain ⟨hp, rfl, he⟩ := h
  rw [List.forall_mem_cons] at he
  exact ⟨hp.head, hp.tail, by simp [Nat.add_assoc, Nat.add_comm 1], he.2⟩

theorem Unstuck.fall (h : Unstuck P enters calls start)
    (hv : Visits kinds P enters calls start n φ) (hi : P[n]? = some i) (hf : i.falls = true) :
    ∃ ψ, i.after? φ = some ψ ∧ Visits kinds P enters calls start (n + 1) ψ := by
  obtain ⟨ψ, hψ⟩ := h n φ i hv hi
  exact ⟨ψ, hψ, .fall hv hi hf hψ⟩

theorem Unstuck.go (h : Unstuck P enters calls start)
    (hv : Visits kinds P enters calls start n φ) (hi : P[n]? = some i)
    (hl : i.target? φ.back? = some l) (hq : P[q]? = some (.label l)) :
    ∃ ψ, i.after? φ = some ψ ∧ Visits kinds P enters calls start (q + 1) ψ := by
  obtain ⟨ψ, hψ⟩ := h n φ i hv hi
  exact ⟨ψ, hψ, .fall (.go hv hi hl hψ hq) hq rfl rfl⟩

theorem visits_boxing {want : Want} (hv : Visits kinds P enters calls start n (φ.push .word))
    (hp : Spans P enters n (boxing ψ want) q) :
    Visits kinds P enters calls start q (φ.push want.kind) := by
  cases want with
  | basic => exact hp.nil ▸ hv
  | reference =>
    obtain ⟨hi, hp⟩ := hp.cons
    exact hp.nil ▸ .fall hv hi rfl (Instr.after?_mkbasic φ)

theorem visits_unboxing {want : Want} {k : Kind} (h : Unstuck P enters calls start)
    (hv : Visits kinds P enters calls start n (φ.push k))
    (hp : Spans P enters n (unboxing ψ want) q) :
    ∃ k', Visits kinds P enters calls start q (φ.push k') ∧ (k' = want.kind → k = .ref) := by
  cases want with
  | reference => exact ⟨k, hp.nil ▸ hv, id⟩
  | basic =>
    obtain ⟨hi, hp⟩ := hp.cons
    obtain ⟨χ, hχ, hv⟩ := h.fall hv hi rfl
    obtain ⟨rfl, hk⟩ := Frame.of_exchange hχ
    exact ⟨.word, hp.nil ▸ hv, fun _ => hk⟩

end

namespace Piece

/-- The frame `φ` is as high as the one that is expected before the piece, and the variables of the
    piece do not lie above. -/
structure Fit (G : Slots) (φ : Frame) (piece : Piece) : Prop where
  level : φ.level = piece.entry.level
  within : ∀ x, piece.Uses x → Within G piece.scope φ.level x

/-- Where a piece ends, if it is entered with the frame `φ` and no path gets stuck: what it leaves
    is as expected only if the piece is sound. -/
def Outcome (G : Slots) (R : Frame → Prop) (φ : Frame) (piece : Piece) : Prop :=
  match piece with
  | code want _ _ _ => ∃ k, R (φ.push k) ∧ (k = want.kind → piece.Sound G φ)
  | arguments _ _ es => ∃ ks, ks.length = es.length ∧ R (φ.piled ks) ∧
      ((∀ k ∈ ks, k = .ref) → piece.Sound G φ)
  | bindings .. => R φ ∧ piece.Sound G φ
  | reads _ _ xs => ∃ ks, ks.length = xs.length ∧ R (φ.piled ks) ∧
      ((∀ k ∈ ks, k = .ref) → piece.Sound G φ)

end Piece

/-- **If paths get stuck nowhere, a piece is sound as far as it leaves what is expected.**  There
    may be any words on the stack before it. -/
theorem Emits.outcome {order : CaptureOrder} {G : Slots} {piece : Piece} {S : List Spot}
    {P : List Instr} {enters : Cell → Frame → Prop} {calls : Nat → Cell → Prop} {start : Frame}
    (hu : Unstuck P enters calls start) (ho : order.Lists) (h : Emits order G piece S) :
    ∀ {n q : Nat} {φ : Frame}, piece.AllCapture → piece.Fit G φ → Spans P enters n S q →
    Visits kinds P enters calls start n φ →
    piece.Outcome G (Visits kinds P enters calls start q) φ := by
  induction h with
  | @missing want =>
    intro n q φ _ _ hp hv
    obtain ⟨hi, hp⟩ := hp.cons
    refine ⟨.word, hp.nil ▸ .fall hv hi rfl rfl, fun hk => ⟨?_, nofun⟩⟩
    cases want with
    | basic => exact .missing
    | reference => cases hk
  | @number want =>
    intro n q φ _ _ hp hv
    obtain ⟨hi, hp⟩ := hp.cons
    exact ⟨want.kind, visits_boxing (.fall hv hi rfl rfl) hp, fun _ => ⟨.number, nofun⟩⟩
  | @unary want _ _ _ _ _ _ _ _ ih =>
    intro n q φ hc hfit hp hv
    obtain ⟨m, hpa, hp⟩ := hp.append
    obtain ⟨ho, hp⟩ := hp.cons
    obtain ⟨k, hva, hk⟩ := ih (hc.part (by simp [Expr.parts]))
      ⟨hfit.level, fun x hx => hfit.within x (.unary hx)⟩ hpa hv
    obtain ⟨χ, hχ, hvo⟩ := hu.fall hva ho rfl
    obtain ⟨rfl, rfl⟩ := Frame.of_exchange hχ
    refine ⟨want.kind, visits_boxing hvo hp, fun _ => ⟨.unary (hk rfl).whole, fun x hx => ?_⟩⟩
    cases hx with
    | unary hx => exact (hk rfl).held x hx
  | @binary want _ _ _ _ _ _ _ _ _ _ _ iha ihb =>
    intro n q φ hc hfit hp hv
    obtain ⟨m, hp, hpo⟩ := hp.append
    obtain ⟨ho, hpo⟩ := hpo.cons
    obtain ⟨j, hpa, hpb⟩ := hp.append
    obtain ⟨k, hva, hk⟩ := iha (hc.part (by simp [Expr.parts]))
      ⟨hfit.level, fun x hx => hfit.within x (.left hx)⟩ hpa hv
    obtain ⟨k', hvb, hk'⟩ := ihb (hc.part (by simp [Expr.parts]))
      ⟨by simp [hfit.level], fun x hx => (hfit.within x (.right hx)).mono
        (by rw [Frame.level_push]; omega)⟩ hpb hva
    obtain ⟨χ, hχ, hvo⟩ := hu.fall hvb ho rfl
    obtain ⟨rfl, rfl, rfl⟩ := of_after?_binary hχ
    refine ⟨want.kind, visits_boxing hvo hpo, fun _ =>
      ⟨.binary (hk rfl).whole (hk' rfl).whole, fun x hx => ?_⟩⟩
    cases hx with
    | left hx => exact (hk rfl).held x hx
    | right hx => exact ((hk' rfl).held x hx).of_push (hfit.within x (.right hx))
  | var _ ih =>
    intro n q φ _ hfit hp hv
    obtain ⟨m, hpx, hp⟩ := hp.append
    obtain ⟨ks, hlen, hvx, hks⟩ := ih trivial ⟨hfit.level, fun x hx =>
      hfit.within x (List.mem_singleton.1 hx ▸ .var)⟩ hpx hv
    obtain ⟨k, rfl⟩ := List.length_eq_one_iff.1 hlen
    obtain ⟨k', hv, hk⟩ := visits_unboxing hu hvx hp
    refine ⟨k', hv, fun hwant => ⟨.var, fun x hx => ?_⟩⟩
    cases hx with
    | var => exact (hks (by simp [hk hwant])).held _ (.head _)
  | @ifThen i th el en want _ _ _ _ _ b _ _ _ _ _ _ ihe iha ihb =>
    intro n q φ hc hfit hp hv
    obtain ⟨r, hp, hpend⟩ := hp.append
    obtain ⟨r', hp, hpelse⟩ := hp.append
    obtain ⟨r'', hpe, hpthen⟩ := hp.append
    obtain ⟨hi, hpe⟩ := hpe.cons
    obtain ⟨hjumpz, hpthen⟩ := hpthen.cons
    obtain ⟨hthen, hpa⟩ := hpthen.cons
    obtain ⟨hjump, hpelse⟩ := hpelse.cons
    obtain ⟨helse, hpb⟩ := hpelse.cons
    obtain ⟨hend, hpend⟩ := hpend.cons
    obtain ⟨k, hve, hk⟩ := ihe (hc.part (by simp [Expr.parts]))
      ⟨hfit.level, fun x hx => hfit.within x (.condition hx)⟩ hpe (.fall hv hi rfl rfl)
    obtain ⟨χ, hχ, hvthen⟩ := hu.fall hve hjumpz rfl
    obtain ⟨rfl, rfl⟩ := Frame.of_take?_push hχ
    obtain ⟨ka, hva, hka⟩ := iha (hc.part (by simp [Expr.parts]))
      ⟨hfit.level, fun x hx => hfit.within x (.yes hx)⟩ hpa (.fall hvthen hthen rfl rfl)
    obtain ⟨kb, hvb, hkb⟩ := ihb (hc.part (by simp +contextual [Expr.parts]))
      ⟨hfit.level, fun x hx => by
        cases b with
        | none => cases hx
        | some b => exact hfit.within x (.no hx)⟩ hpb
      (.fall (.go hve hjumpz rfl hχ helse) helse rfl rfl)
    -- the branch that leaves something else, if there is one
    by_cases heq : ka = want.kind
    · refine ⟨kb, hpend.nil ▸ .fall hvb hend rfl rfl, fun h =>
        ⟨.ifThen (hk rfl).whole (hka heq).whole (hkb h).whole, fun x hx => ?_⟩⟩
      cases hx with
      | condition hx => exact (hk rfl).held x hx
      | yes hx => exact (hka heq).held x hx
      | no hx => exact (hkb h).held x hx
    · exact ⟨ka, hpend.nil ▸ .fall (.go hva hjump rfl rfl hend) hend rfl rfl, fun h => absurd h heq⟩
  | @letIn _ _ _ _ bs _ _ _ _ _ ihi iha =>
    intro n q φ hc hfit hp hv
    obtain ⟨r, hp, hpend⟩ := hp.append
    obtain ⟨r', hp, hpa⟩ := hp.append
    obtain ⟨halloc, hpi⟩ := hp.cons
    obtain ⟨hslide, hpend⟩ := hpend.cons
    have hlevel := hfit.level
    simp only [Piece.entry] at hlevel
    rw [← hlevel] at ihi iha
    obtain ⟨hvi, hi⟩ := ihi
      (fun b hb => (hc _ rfl).part (List.mem_append_left _ (List.mem_map_of_mem hb)))
      ⟨by simp [hlevel], fun x hx => by
        obtain ⟨b, hb, hx⟩ := hx
        rw [Frame.level_pushes]
        exact .letIn fun hbound => hfit.within x (.binding hbound hb hx)⟩ hpi
      (.fall hv halloc rfl rfl)
    obtain ⟨k, hva, hk⟩ := iha (hc.part (by simp [Expr.parts]))
      ⟨by simp [hlevel], fun x hx => by
        rw [Frame.level_pushes]
        exact .letIn fun hbound => hfit.within x (.body hbound hx)⟩ hpa hvi
    refine ⟨k, hpend.nil ▸ .fall hva hslide rfl (Instr.after?_slide ..), fun h =>
      ⟨.letIn hi.whole (hk h).whole, fun x hx => ?_⟩⟩
    have hwithin := hfit.within x hx
    cases hx with
    | binding hbound hb hx => exact (hi.held x ⟨_, hb, hx⟩).of_letIn hbound hwithin
    | body hbound hx => exact ((hk h).held x hx).of_letIn hbound hwithin
  | @call ret want _ _ _ _ args _ _ _ _ ihargs ihe =>
    intro n q φ hc hfit hp hv
    obtain ⟨r, hp, hpend⟩ := hp.append
    obtain ⟨r', hp, hpe⟩ := hp.append
    obtain ⟨hmark, hpargs⟩ := hp.cons
    obtain ⟨happly, hpend⟩ := hpend.cons
    obtain ⟨hret, hpend⟩ := hpend.cons
    obtain ⟨ks, hlen, hvargs, hargs⟩ := ihargs
      (fun a ha => (hc _ rfl).part (by simp [Expr.parts, ha]))
      ⟨by simp [hfit.level], fun x hx => by
        obtain ⟨a, ha, hx⟩ := hx
        exact (hfit.within x (.argument ha hx)).mono (by rw [Frame.level_mark]; omega)⟩ hpargs
      (.fall hv hmark rfl rfl)
    obtain ⟨k, hve, hk⟩ := ihe (hc.part (by simp [Expr.parts]))
      ⟨by simp [hfit.level, Frame.level_piled, hlen], fun x hx =>
        (hfit.within x (.callee hx)).mono (by rw [Frame.level_piled, Frame.level_mark]; omega)⟩
      hpe hvargs
    obtain ⟨χ, hχ, hvret⟩ := hu.go hve happly rfl hret
    obtain ⟨rfl, rfl, hks⟩ := of_after?_apply hχ
    obtain ⟨k', hv', -⟩ := visits_unboxing hu hvret hpend
    refine ⟨k', hv', fun _ => ⟨.call (hk rfl).whole (hargs hks).whole, fun x hx => ?_⟩⟩
    have hwithin := hfit.within x hx
    cases hx with
    | callee hx =>
      exact (((hk rfl).held x hx).of_piled (hwithin.mono (by rw [Frame.level_mark]; omega))).of_mark
        hwithin
    | argument ha hx => exact ((hargs hks).held x ⟨_, ha, hx⟩).of_mark hwithin
  | @lambda fn af _ _ p params a rest names _ _ hnames _ _ ihx iha =>
    intro n q φ hc hfit hp hv
    have henter : enters (.text fn) (.body fn params) :=
      hp.entered ⟨.body fn params, .function params a, .label (.text fn)⟩ (by simp) rfl _ rfl
    obtain ⟨r, hp, hpend⟩ := hp.append
    obtain ⟨r', hp, hpa⟩ := hp.append
    obtain ⟨r'', hpx, hp⟩ := hp.append
    obtain ⟨hmkvec, hp⟩ := hp.cons
    obtain ⟨hmkfunval, hp⟩ := hp.cons
    obtain ⟨hjump, hp⟩ := hp.cons
    obtain ⟨hfn, hp⟩ := hp.cons
    obtain ⟨hpopenv, hpend⟩ := hpend.cons
    obtain ⟨hafter, hpend⟩ := hpend.cons
    have hexact := hc _ rfl _ _ _ _ .self
    have hcaptured : ∀ x, x ∈ order fn names ↔ Free x (.lambda p params a rest) := by
      obtain ⟨names', hnames', hmem⟩ := hexact
      cases hnames.symm.trans hnames'
      exact fun x => (ho fn names x).trans (hmem x)
    obtain ⟨ks, hlen, hvx, hks⟩ := ihx trivial
      ⟨hfit.level, fun x hx => hfit.within x ((hcaptured x).1 hx)⟩ hpx hv
    obtain ⟨χ, hχ, hvvec⟩ := hu.fall hvx hmkvec rfl
    rw [← hlen] at hχ
    obtain ⟨rfl, hrefs⟩ := of_after?_mkvec hχ
    have hvjump : Visits kinds P enters calls start (r'' + 1 + 1) (φ.push .ref) :=
      .fall hvvec hmkfunval rfl (Instr.after?_mkfunval φ (.text fn))
    -- the body is entered with its arguments
    have hvbody : Visits kinds P enters calls start r' (.body fn params) :=
      hp.nil ▸ .fall (.enter hfn henter) hfn rfl rfl
    obtain ⟨k, hva, hk⟩ := iha (hc.part (by simp [Expr.parts]))
      ⟨rfl, fun x hx => within_body ho hnames hexact hx⟩ hpa hvbody
    obtain ⟨χ, hχ⟩ := hu _ _ _ hva hpopenv
    obtain ⟨-, rfl⟩ := Frame.of_exchange hχ
    exact ⟨.ref, hpend.nil ▸ .fall (.go hvjump hjump rfl rfl hafter) hafter rfl rfl,
      fun _ => ⟨.lambda (hk rfl).whole, fun x hx => (hks hrefs).held x ((hcaptured x).2 hx)⟩⟩
  | noArgument =>
    intro n q φ _ _ hp hv
    exact ⟨[], rfl, hp.nil ▸ hv, fun _ => ⟨nofun, fun x hx => by simp [Piece.Uses] at hx⟩⟩
  | argument _ _ ihs iha =>
    intro n q φ hc hfit hp hv
    obtain ⟨m, hps, hpa⟩ := hp.append
    obtain ⟨ks, hlen, hvs, hks⟩ := ihs (fun a ha => hc a (.tail _ ha))
      ⟨hfit.level, fun x hx => by
        obtain ⟨a, ha, hx⟩ := hx
        exact hfit.within x ⟨a, .tail _ ha, hx⟩⟩ hps hv
    obtain ⟨k, hva, hk⟩ := iha (fun a ha => Option.some.inj ha ▸ hc _ (.head _))
      ⟨by simpa [Frame.level_piled, hlen] using hfit.level, fun x hx =>
        (hfit.within x ⟨_, .head _, hx⟩).mono (by rw [Frame.level_piled]; omega)⟩ hpa hvs
    refine ⟨k :: ks, by simp [hlen], hva, fun h => ?_⟩
    rw [List.forall_mem_cons] at h
    refine ⟨List.forall_mem_cons.2 ⟨(hk h.1).whole, (hks h.2).whole⟩, fun x hx => ?_⟩
    have hwithin := hfit.within x hx
    obtain ⟨a, ha, hx⟩ := hx
    rcases List.mem_cons.1 ha with rfl | ha
    · exact ((hk h.1).held x hx).of_piled hwithin
    · exact (hks h.2).held x ⟨a, ha, hx⟩
  | noBinding =>
    intro n q φ _ _ hp hv
    exact ⟨hp.nil ▸ hv, nofun, fun x hx => by simp [Piece.Uses] at hx⟩
  | binding hn _ _ iha ihs =>
    intro n q φ hc hfit hp hv
    obtain ⟨m, hpa, hp⟩ := hp.append
    obtain ⟨hpatch, hps⟩ := hp.cons
    obtain ⟨k, hva, hk⟩ := iha (fun a ha => Option.some.inj ha ▸ hc _ (.head _))
      ⟨hfit.level, fun x hx => hfit.within x ⟨_, .head _, hx⟩⟩ hpa hv
    obtain ⟨χ, hχ, hvpatch⟩ := hu.fall hva hpatch rfl
    obtain ⟨rfl, rfl⟩ := of_after?_patch hχ
    obtain ⟨hvs, hs⟩ := ihs (fun b hb => hc b (.tail _ hb)) ⟨hfit.level, fun x hx => by
      obtain ⟨b, hb, hx⟩ := hx
      exact hfit.within x ⟨b, .tail _ hb, hx⟩⟩ hps hvpatch
    refine ⟨hvs, List.forall_mem_cons.2 ⟨(hk rfl).whole, hs.whole⟩, fun x hx => ?_⟩
    obtain ⟨b, hb, hx⟩ := hx
    rcases List.mem_cons.1 hb with rfl | hb
    · exact (hk rfl).held x hx
    · exact hs.held x ⟨b, hb, hx⟩
  | noVariable =>
    intro n q φ _ _ hp hv
    exact ⟨[], rfl, hp.nil ▸ hv, fun _ => ⟨trivial, nofun⟩⟩
  | variable_ hx _ ih =>
    intro n q φ _ hfit hp hv
    obtain ⟨hi, hp⟩ := hp.cons
    obtain ⟨χ, hχ, hvx⟩ := hu.fall hv hi (falls_access ..)
    obtain ⟨k, rfl, hholds⟩ := of_after?_access hfit.level hχ
    obtain ⟨ks, hlen, hvs, hks⟩ := ih trivial ⟨by simpa using hfit.level, fun y hy =>
      (hfit.within y (.tail _ hy)).mono (by rw [Frame.level_push]; omega)⟩ hp hvx
    refine ⟨ks ++ [k], by simp [hlen], by rwa [Frame.piled_concat], fun h => ?_⟩
    rw [List.forall_mem_append, List.forall_mem_singleton] at h
    obtain ⟨hrefs, rfl⟩ := h
    refine ⟨trivial, fun y hy => ?_⟩
    have hwithin := hfit.within y hy
    rcases List.mem_cons.1 hy with rfl | hy
    · intro slot hslot hs
      cases hx.symm.trans hslot
      exact hholds hs
    · exact ((hks hrefs).held y hy).of_push hwithin

end ExprLang.MaMa
