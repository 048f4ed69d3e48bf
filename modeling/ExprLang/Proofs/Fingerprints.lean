/-
  When a stream tells data apart.

  * `eq_of_apart`, `eq_of_short`: the pieces can be read off the characters, if no numeral but zero
    is followed by a digit and no text by anything, or if every numeral has one digit;
  * `exists_joined_of_crowded`: two numbers or texts in a row that can be cut elsewhere give
    another datum with the same characters;
  * `stream_tells_apart`: what both mean for streams, and that a datum which shares its stream does
    so with one of its lookalikes.
-/
import ExprLang.Proofs.FingerprintReadings
import ExprLang.Proofs.Numerals

namespace ExprLang

open Sha256 (Bytes)

namespace Fingerprint

variable {p q : Piece} {x y xs : List Char} {a b m n : Nat} {ps qs : List Piece}

/-! ## Where pieces end -/

namespace Piece

/-- Another piece can follow without the end of the first one getting lost. -/
def Apart : Piece → Piece → Prop
  | text _, _ => False
  | number _ n, number .plain _ => n = 0
  | _, _ => True

/-- A number has one digit, and nothing is a text. -/
def Short : Piece → Prop
  | text _ => False
  | number _ n => n < 10
  | _ => True

end Piece

theorem shape_eq (h : p.chars ++ x = q.chars ++ y) : p.shape = q.shape := by
  obtain ⟨c, cs, hp, hshape⟩ := ofChar_head p
  obtain ⟨c', cs', hq, hshape'⟩ := ofChar_head q
  rw [hp, hq, List.cons_append, List.cons_append] at h
  rw [← hshape, ← hshape', (List.cons.inj h).1]

theorem eq_number_of_shape {lead : Lead} (h : q.shape = .number lead) :
    ∃ n, q = .number lead n := by
  cases q with
  | number lead' n => cases h; exact ⟨n, rfl⟩
  | _ => cases h

theorem arity_mono (lead : Lead) (h : a ≤ b) :
    (Piece.number lead a).arity ≤ (Piece.number lead b).arity := by
  cases lead <;> simp only [Piece.arity, Lead.arity] <;> omega

theorem exists_cons_of_joined (h : Piece.joined (p :: ps) = Piece.joined qs) :
    ∃ q rs, qs = q :: rs := by
  obtain ⟨c, cs, hp, _⟩ := ofChar_head p
  cases qs with
  | nil => rw [joined_cons, hp] at h; cases h
  | cons q rs => exact ⟨q, rs, rfl⟩

/-- Where two rows of pieces give the same characters, the first pieces are equal, or two texts, or
    two numbers with the same mark. -/
theorem first_pieces (h : p.chars ++ x = q.chars ++ y) :
    p = q ∧ x = y ∨ (∃ s, p = .text s) ∧ (∃ t, q = .text t) ∨
      ∃ lead a b, p = .number lead a ∧ q = .number lead b ∧
        Nat.toDigits 10 a ++ x = Nat.toDigits 10 b ++ y := by
  have hshape := shape_eq h
  rcases p with _ | b | ⟨lead, a⟩ | s
  · cases q with
    | null => exact .inl ⟨rfl, List.append_cancel_left h⟩
    | _ => cases hshape
  · cases q with
    | bool b' =>
      cases hshape
      exact .inl ⟨rfl, List.append_cancel_left h⟩
    | _ => cases hshape
  · obtain ⟨b, rfl⟩ := eq_number_of_shape hshape.symm
    rw [chars_number, chars_number, List.append_assoc, List.append_assoc] at h
    exact .inr (.inr ⟨lead, a, b, rfl, rfl, List.append_cancel_left h⟩)
  · cases q with
    | text t => exact .inr (.inl ⟨⟨s, rfl⟩, t, rfl⟩)
    | _ => cases hshape

theorem digits_cut {as bs ys : List Char} (hbs : ∀ c ∈ bs, c.isDigit = true)
    (hxs : ∀ c ∈ xs.head?, c.isDigit = false) (h : as ++ xs = bs ++ ys) :
    ∃ cs, as = bs ++ cs ∧ ys = cs ++ xs := by
  rcases List.append_eq_append_iff.1 h with ⟨cs, rfl, rfl⟩ | hcut
  · cases cs with
    | nil => exact ⟨[], by simp, by simp⟩
    | cons c cs =>
      have hdigit := hbs c (by simp)
      rw [hxs c (by simp)] at hdigit
      cases hdigit
  · exact hcut

theorem first_number {c : Char} (hc : c.isDigit = true) (h : p.chars ++ x = c :: y) :
    ∃ n, p = .number .plain n := by
  obtain ⟨c', cs, hp, hshape⟩ := ofChar_head p
  rw [hp, List.cons_append] at h
  rw [(List.cons.inj h).1, ofChar_digit hc] at hshape
  exact eq_number_of_shape hshape.symm

theorem exists_completes_of_digits (hqs : Completes m qs) {ds : List Char} (hne : ds ≠ [])
    (hds : ∀ c ∈ ds, c.isDigit = true) (hxs : ∀ c ∈ xs.head?, c.isDigit = false)
    (h : Piece.joined qs = ds ++ xs) : ∃ j < m, ∃ rs, Completes j rs ∧ Piece.joined rs = xs := by
  induction hqs generalizing ds with
  | done => exact absurd (List.append_eq_nil_iff.1 h.symm).1 hne
  | @piece n q qs hrest ih =>
    obtain ⟨d, ds', rfl⟩ := List.exists_cons_of_ne_nil hne
    obtain ⟨b, rfl⟩ := first_number (hds d (by simp)) h
    obtain ⟨cs, hcs, hjoined⟩ := digits_cut (fun c hc => toDigits_digits hc) hxs h.symm
    by_cases hnil : cs = []
    · subst hnil
      exact ⟨n, Nat.lt_succ_self n, qs, hrest, hjoined⟩
    · obtain ⟨j, hj, rs, hrs⟩ :=
        ih hnil (fun c hc => hds c (hcs ▸ List.mem_append_right _ hc)) hjoined
      exact ⟨j, Nat.lt_succ_of_lt hj, rs, hrs⟩

theorem exists_completes_of_short {ds : List Char} (hds : ∀ c ∈ ds, c.isDigit = true)
    (hps : Completes n ps) (hshort : ∀ p ∈ ps, p.Short) (h : Piece.joined ps = ds ++ xs) :
    ∃ j, n = j + ds.length ∧ ∃ rs, rs <:+ ps ∧ Completes j rs ∧ Piece.joined rs = xs := by
  induction ds generalizing n ps with
  | nil => exact ⟨n, rfl, ps, List.suffix_rfl, hps, h⟩
  | cons d ds ih =>
    cases hps with
    | done => cases h
    | @piece n p ps hrest =>
      obtain ⟨a, rfl⟩ := first_number (hds d (by simp)) h
      have ha : a < 10 := hshort _ (.head ps)
      have hjoined : Piece.joined ps = ds ++ xs := by
        rw [joined_cons, chars_number, Nat.toDigits_of_lt_base ha] at h
        exact (List.cons.inj h).2
      obtain ⟨j, rfl, rs, hsuffix, hrs⟩ := ih (fun c hc => hds c (.tail d hc)) hrest
        (fun p hp => hshort p (.tail _ hp)) hjoined
      exact ⟨j, rfl, rs, hsuffix.trans (List.suffix_cons _ ps), hrs⟩

theorem Completes.eq_nil (h : Completes 0 ps) : ps = [] := by
  cases h
  rfl

theorem not_digit_of_apart {lead : Lead} (h : (Piece.number lead a :: ps).IsChain Piece.Apart)
    (ha : a ≠ 0) : ∀ c ∈ (Piece.joined ps).head?, c.isDigit = false := by
  intro c hc
  cases ps with
  | nil => cases hc
  | cons p ps =>
    obtain ⟨c', cs, hp, hshape⟩ := ofChar_head p
    rw [joined_cons, hp] at hc
    cases hc
    by_contra hdigit
    rw [ofChar_digit (Bool.eq_true_of_not_eq_false hdigit)] at hshape
    obtain ⟨b, rfl⟩ := eq_number_of_shape hshape.symm
    exact ha (List.isChain_cons_cons.1 h).1

/-- Two numerals with the same start are equal, or neither is zero. -/
theorem ne_zero_of_digits (h : Nat.toDigits 10 a ++ x = Nat.toDigits 10 b ++ y) (hab : a ≠ b) :
    a ≠ 0 := by
  rintro rfl
  obtain ⟨c, cs, hcs⟩ := List.exists_cons_of_ne_nil (Nat.toDigits_ne_nil (n := b) (b := 10))
  have hc : '0' = c := by
    rw [hcs, List.cons_append] at h
    exact (List.cons.inj h).1
  exact hab (toDigits_cons_zero (hc ▸ hcs)).1.symm

/-- A numeral of one digit is the start of every numeral in its place. -/
theorem longer_of_digits (ha : a < 10) (h : Nat.toDigits 10 a ++ x = Nat.toDigits 10 b ++ y) :
    ∃ cs, Nat.toDigits 10 b = Nat.toDigits 10 a ++ cs ∧ x = cs ++ y := by
  obtain ⟨c, cs, hb⟩ := List.exists_cons_of_ne_nil (Nat.toDigits_ne_nil (n := b) (b := 10))
  rw [Nat.toDigits_of_lt_base ha, hb] at h ⊢
  obtain ⟨hc, hx⟩ := List.cons.inj h
  exact ⟨cs, by rw [hc]; rfl, hx⟩

/-- **Pieces that stand apart can be read in one way.** -/
theorem eq_of_apart (hapart : ps.IsChain Piece.Apart) (hps : Completes n ps) (hqs : Completes m qs)
    (hle : m ≤ n) (h : Piece.joined ps = Piece.joined qs) : ps = qs := by
  induction hps generalizing m qs with
  | done =>
    rw [Nat.le_zero.1 hle] at hqs
    rw [hqs.eq_nil]
  | @piece n p ps hrest ih =>
    obtain ⟨q, qs, rfl⟩ := exists_cons_of_joined h
    cases hqs with
    | @piece m _ _ hqrest =>
    rcases first_pieces h with ⟨rfl, hjoined⟩ | ⟨⟨s, rfl⟩, t, rfl⟩ | ⟨lead, a, b, rfl, rfl, hdigits⟩
    · rw [ih hapart.tail hqrest (by omega) hjoined]
    · have hnil : ps = [] := by
        cases ps with
        | nil => rfl
        | cons p ps => exact ((List.isChain_cons_cons.1 hapart).1).elim
      subst hnil
      have hn : n = 0 := hrest.unique .done
      have hm : m = 0 := by omega
      subst hm
      have hnil : qs = [] := hqrest.eq_nil
      subst hnil
      have hst : s.toList = t.toList := by simpa [Piece.joined, Piece.chars] using h
      rw [String.toList_inj.1 hst]
    · by_cases hab : a = b
      · subst hab
        rw [ih hapart.tail hqrest (by omega) (List.append_cancel_left hdigits)]
      · -- A shorter numeral opens no more data, and what is cut off it takes the place of one.
        exfalso
        have hnot := not_digit_of_apart hapart (ne_zero_of_digits hdigits hab)
        obtain ⟨cs, hcs, hjoined⟩ := digits_cut (fun c hc => toDigits_digits hc) hnot hdigits
        have hne : cs ≠ [] := by
          rintro rfl
          exact hab (toDigits_inj (by simpa using hcs))
        have hba : b ≤ a := by
          rw [toDigits_inj (eq_toDigits_of_append hcs Nat.toDigits_ne_nil)]
          exact Nat.div_le_self _ _
        have harity := arity_mono lead hba
        obtain ⟨j, hj, rs, hrs, hjrs⟩ := exists_completes_of_digits hqrest hne
          (fun c hc => toDigits_digits (n := a) (hcs ▸ List.mem_append_right _ hc)) hnot hjoined
        have heq := ih hapart.tail hrs (by omega) hjrs.symm
        have hopen := hrest.unique (heq ▸ hrs)
        omega

/-- **Pieces with one digit each can be read in one way.** -/
theorem eq_of_short (hshort : ∀ p ∈ ps, p.Short) (hps : Completes n ps) (hqs : Completes m qs)
    (hle : n ≤ m) (h : Piece.joined ps = Piece.joined qs) : ps = qs := by
  -- Digits drawn into a number take several pieces away, so the induction is on their number.
  induction hk : ps.length using Nat.strong_induction_on generalizing m n ps qs with
  | _ k ih =>
  subst hk
  cases hps with
  | done =>
    cases qs with
    | nil => rfl
    | cons q qs =>
      obtain ⟨q', qs', hnil⟩ := exists_cons_of_joined h.symm
      cases hnil
  | @piece n p ps hrest =>
    obtain ⟨q, qs, rfl⟩ := exists_cons_of_joined h
    cases hqs with
    | @piece m _ _ hqrest =>
    have htail : ∀ p ∈ ps, p.Short := fun p hp => hshort p (.tail _ hp)
    rcases first_pieces h with ⟨rfl, hjoined⟩ | ⟨⟨s, rfl⟩, _⟩ | ⟨lead, a, b, rfl, rfl, hdigits⟩
    · rw [ih _ (Nat.lt_succ_self _) htail hrest hqrest (by omega) hjoined rfl]
    · exact (hshort _ (.head ps)).elim
    · by_cases hab : a = b
      · subst hab
        rw [ih _ (Nat.lt_succ_self _) htail hrest hqrest (by omega)
          (List.append_cancel_left hdigits) rfl]
      · -- A longer numeral opens no fewer data, and leaves fewer pieces for them.
        exfalso
        have ha : a < 10 := hshort _ (.head ps)
        obtain ⟨cs, hcs, hjoined⟩ := longer_of_digits ha hdigits
        have hne : cs.length ≠ 0 := by
          intro hlength
          rw [List.length_eq_zero_iff.1 hlength, List.append_nil] at hcs
          exact hab (toDigits_inj hcs.symm)
        have hle' : a ≤ b := by
          rw [toDigits_inj (eq_toDigits_of_append hcs Nat.toDigits_ne_nil)]
          exact Nat.div_le_self _ _
        have harity := arity_mono lead hle'
        obtain ⟨j, hj, rs, hsuffix, hrs, hjrs⟩ := exists_completes_of_short
          (fun c hc => toDigits_digits (n := b) (hcs ▸ List.mem_append_right _ hc)) hrest htail
          hjoined
        have heq := ih _ (Nat.lt_succ_of_le hsuffix.length_le)
          (fun p hp => htail p (hsuffix.subset hp)) hrs hqrest (by omega) hjrs rfl
        have hopen := hqrest.unique (heq ▸ hrs)
        omega

/-! ## Data that share a stream -/

/-- Two numerals in a row can be cut elsewhere, if the second one has a digit to give away, or the
    first one ends with a digit that a numeral can start with. -/
theorem numerals_recut (h : a ≠ 0 ∧ 10 ≤ b ∨ 10 ≤ a ∧ a % 10 ≠ 0) : ∃ a' b', 0 < a' ∧ a' ≠ a ∧
      Nat.toDigits 10 a' ++ Nat.toDigits 10 b' = Nat.toDigits 10 a ++ Nat.toDigits 10 b := by
  have hlast : ∀ n, 10 ≤ n →
      Nat.toDigits 10 n = Nat.toDigits 10 (n / 10) ++ Nat.toDigits 10 (n % 10) := by
    intro n hn
    rw [Nat.toDigits_of_base_le (by decide) hn,
      Nat.toDigits_of_lt_base (Nat.mod_lt n (by decide) : n % 10 < 10)]
  rcases h with ⟨ha, hb⟩ | ⟨ha, hmod⟩
  · have hlong := toDigits_append (Nat.pos_of_ne_zero ha) (b / 10)
    have hgrow : a < a * 10 ^ (Nat.toDigits 10 (b / 10)).length + b / 10 := by
      have hpow : 0 < 10 ^ (Nat.toDigits 10 (b / 10)).length := Nat.pow_pos (by decide)
      have hmul := Nat.le_mul_of_pos_right a hpow
      omega
    refine ⟨_, b % 10, Nat.zero_lt_of_lt hgrow, hgrow.ne', ?_⟩
    rw [← hlong, List.append_assoc, ← hlast b hb]
  · have hlong := toDigits_append (Nat.pos_of_ne_zero hmod) b
    refine ⟨a / 10, a % 10 * 10 ^ (Nat.toDigits 10 b).length + b, by omega, by omega, ?_⟩
    rw [← hlong, ← List.append_assoc, ← hlast a ha]

/-- Two texts in a row can be cut elsewhere, if one of them has the mark of a text in it. -/
theorem texts_recut {s t : String} (h : 's' ∈ s.toList ∨ 's' ∈ t.toList) :
    ∃ s' t' : String, s' ≠ s ∧
      Piece.joined [.text s', .text t'] = Piece.joined [.text s, .text t] := by
  rcases h with h | h
  · obtain ⟨x, y, hxy⟩ := List.append_of_mem h
    refine ⟨.ofList x, .ofList (y ++ 's' :: t.toList), ?_, ?_⟩
    · rintro rfl
      simp at hxy
    · simp [Piece.joined, Piece.chars, hxy]
  · obtain ⟨x, y, hxy⟩ := List.append_of_mem h
    refine ⟨.ofList (s.toList ++ 's' :: x), .ofList y, ?_, ?_⟩
    · intro heq
      have hlist := congrArg String.toList heq
      simp at hlist
    · simp [Piece.joined, Piece.chars, hxy]

end Fingerprint

namespace Datum

/-- Somewhere in a sequence two numbers or two texts in a row can be cut elsewhere.  The digits of
    the numbers must not be more than one number is written with. -/
inductive Crowded : Datum → Prop
  | numbers {d : Datum} {i : Int} {b : Nat} {pre post : List Datum}
    (hd : d.items? = some (pre ++ .int i :: .int b :: post))
    (h : i ≠ 0 ∧ 10 ≤ b ∨ 10 ≤ i.natAbs ∧ i.natAbs % 10 ≠ 0)
    (hdigits : (Nat.toDigits 10 i.natAbs).length + (Nat.toDigits 10 b).length ≤
      Fingerprint.mostDigits) : Crowded d
  | texts {d : Datum} {s t : String} {pre post : List Datum}
    (hd : d.items? = some (pre ++ .text s :: .text t :: post))
    (h : 's' ∈ s.toList ∨ 's' ∈ t.toList) : Crowded d
  | inside {d e : Datum} {pre post : List Datum} (hd : d.items? = some (pre ++ e :: post))
    (h : Crowded e) : Crowded d

theorem Same.int_eq {i j : Int} (h : (Datum.int i).Same (.int j)) : i = j := by
  cases h with
  | int => rfl
  | sequence hd => cases hd

theorem Same.text_eq {s t : String} (h : (Datum.text s).Same (.text t)) : s = t := by
  cases h with
  | text => rfl
  | sequence hd => cases hd

/-- The members of a sequence within bounds are within bounds themselves. -/
theorem Plain.items {n : Nat} {d : Datum} {ds : List Datum} (h : d.Plain n)
    (hd : d.items? = some ds) :
    ∃ k, n = k + 1 ∧ ds.length ≤ Fingerprint.longest ∧ ∀ e ∈ ds, e.Plain k := by
  cases h with
  | sequence hd' hlength hall =>
    rw [hd] at hd'
    cases hd'
    exact ⟨_, rfl, hlength, hall⟩
  | _ => cases hd

end Datum

namespace Fingerprint

/-- Some members of a sequence, the first of them not the same, can be put in place of others with
    the same characters. -/
theorem exists_joined_eq (x' : Datum) (xs xs' : List Datum) {n : Nat} {d x : Datum}
    {pre post : List Datum} (h : d.Plain (n + 1)) (hwritten : ∀ p ∈ pieces d, p.Written)
    (hd : d.items? = some (pre ++ x :: (xs ++ post))) (hlength : xs'.length = xs.length)
    (hplain : ∀ e ∈ x' :: xs', e.Plain n)
    (hwritten' : ∀ p ∈ (x' :: xs').flatMap pieces, p.Written)
    (hjoined : Piece.joined ((x' :: xs').flatMap pieces) = Piece.joined ((x :: xs).flatMap pieces))
    (hdiff : ¬ x.Same x') :
    ∃ e : Datum, e.Plain (n + 1) ∧ (∀ p ∈ pieces e, p.Written) ∧
      Piece.joined (pieces e) = Piece.joined (pieces d) ∧ ¬ d.Same e := by
  obtain ⟨k, hk, hlongest, hall⟩ := h.items hd
  obtain rfl := Nat.succ.inj hk
  have hsize : (pre ++ x' :: (xs' ++ post)).length = (pre ++ x :: (xs ++ post)).length := by
    simp only [List.length_append, List.length_cons, hlength]
  have hsplit : ∀ (y : Datum) (ys : List Datum), (pre ++ y :: (ys ++ post)).flatMap pieces =
      pre.flatMap pieces ++ ((y :: ys).flatMap pieces ++ post.flatMap pieces) := by
    intro y ys
    rw [List.flatMap_append, ← List.cons_append, List.flatMap_append]
  have hpieces := pieces_sequence (d := .list (pre ++ x' :: (xs' ++ post))) rfl
  rw [hsize, hsplit] at hpieces
  rw [pieces_sequence hd, hsplit] at hwritten ⊢
  refine ⟨.list (pre ++ x' :: (xs' ++ post)), .sequence rfl (hsize ▸ hlongest) ?_, ?_, ?_, ?_⟩
  · intro e he
    rcases List.mem_append.1 he with hpre | hrest
    · exact hall e (List.mem_append_left _ hpre)
    · rw [← List.cons_append] at hrest
      rcases List.mem_append.1 hrest with hnew | hpost
      · exact hplain e hnew
      · exact hall e (by simp [hpost])
  · rw [hpieces]
    simp only [List.forall_mem_cons, List.forall_mem_append] at hwritten hwritten' ⊢
    exact ⟨hwritten.1, hwritten.2.1, hwritten', hwritten.2.2.2⟩
  · rw [hpieces, joined_cons, joined_cons, joined_append, joined_append, joined_append,
      joined_append, hjoined]
  · intro hsame
    obtain ⟨es, hes, hmembers⟩ := hsame.items hd
    cases hes
    have hrest := List.forall₂_drop pre.length hmembers
    rw [List.drop_left, List.drop_left] at hrest
    cases hrest with
    | cons hx _ => exact hdiff hx

theorem joined_numbers (lead : Lead) (a b : Nat) :
    Piece.joined [.number lead a, .number .plain b] =
      lead.chars ++ (Nat.toDigits 10 a ++ Nat.toDigits 10 b) := by
  simp [Piece.joined, Piece.chars, Lead.chars]

/-- Numbers can be written, if their digits in a row are those of others that are not too long. -/
theorem digits_bounds {a b a' b' : Nat}
    (h : Nat.toDigits 10 a' ++ Nat.toDigits 10 b' = Nat.toDigits 10 a ++ Nat.toDigits 10 b)
    (hdigits : (Nat.toDigits 10 a).length + (Nat.toDigits 10 b).length ≤ mostDigits) :
    (Nat.toDigits 10 a').length ≤ mostDigits ∧ (Nat.toDigits 10 b').length ≤ mostDigits := by
  have hlength := congrArg List.length h
  rw [List.length_append, List.length_append] at hlength
  omega

theorem ints_recut {i : Int} {b : Nat} (h : i ≠ 0 ∧ 10 ≤ b ∨ 10 ≤ i.natAbs ∧ i.natAbs % 10 ≠ 0)
    (hdigits : (Nat.toDigits 10 i.natAbs).length + (Nat.toDigits 10 b).length ≤ mostDigits) :
    ∃ (i' : Int) (b' : Nat), i' ≠ i ∧ (Piece.ofInt i').Written ∧ (Piece.ofInt b').Written ∧
      Piece.joined [.ofInt i', .number .plain b'] = Piece.joined [.ofInt i, .number .plain b] := by
  rw [← Int.natAbs_ne_zero] at h
  obtain ⟨a, b', hpos, hdiff, hcut⟩ := numerals_recut h
  obtain ⟨ha, hb'⟩ := digits_bounds hcut hdigits
  cases i with
  | ofNat n =>
    refine ⟨.ofNat a, b', fun heq => hdiff (Int.ofNat.inj heq), ha, hb', ?_⟩
    rw [Piece.ofInt, Piece.ofInt, joined_numbers, joined_numbers, hcut]
    rfl
  | negSucc n =>
    obtain ⟨k, rfl⟩ := Nat.exists_eq_succ_of_ne_zero hpos.ne'
    refine ⟨.negSucc k, b', fun heq => hdiff (congrArg Nat.succ (Int.negSucc.inj heq)), ha, hb', ?_⟩
    rw [Piece.ofInt, Piece.ofInt, joined_numbers, joined_numbers]
    exact congrArg _ hcut

/-- **A crowded datum shares its characters with another one.** -/
theorem exists_joined_of_crowded {n : Nat} {d : Datum} (h : d.Plain n)
    (hwritten : ∀ p ∈ pieces d, p.Written) (hd : d.Crowded) :
    ∃ e : Datum, e.Plain n ∧ (∀ p ∈ pieces e, p.Written) ∧
      Piece.joined (pieces e) = Piece.joined (pieces d) ∧ ¬ d.Same e := by
  induction hd generalizing n with
  | @numbers d i b pre post hitems hcut hdigits =>
    obtain ⟨k, rfl, _, _⟩ := h.items hitems
    obtain ⟨i', b', hdiff, hi', hb', hjoined⟩ := ints_recut hcut hdigits
    refine exists_joined_eq (.int i') [.int b] [.int b'] h hwritten hitems rfl ?_ ?_ hjoined ?_
    · simp [Datum.Plain.int]
    · simpa [pieces] using ⟨hi', hb'⟩
    · exact fun hsame => hdiff hsame.int_eq.symm
  | @texts d s t pre post hitems hcut =>
    obtain ⟨k, rfl, _, _⟩ := h.items hitems
    obtain ⟨s', t', hdiff, hjoined⟩ := texts_recut hcut
    refine exists_joined_eq (.text s') [.text t] [.text t'] h hwritten hitems rfl ?_ ?_ hjoined ?_
    · simp [Datum.Plain.text]
    · simp [pieces, Piece.Written]
    · exact fun hsame => hdiff hsame.text_eq.symm
  | @inside d e pre post hitems _ ih =>
    obtain ⟨k, rfl, _, hall⟩ := h.items hitems
    have hinside : ∀ p ∈ pieces e, p.Written := by
      rw [pieces_sequence hitems] at hwritten
      exact fun p hp => hwritten p (.tail _ (List.mem_flatMap.2 ⟨e, by simp, hp⟩))
    obtain ⟨e', hplain, hwritten', hjoined, hdiff⟩ := ih (hall e (by simp)) hinside
    refine exists_joined_eq e' [] [] h hwritten hitems rfl ?_ ?_ ?_ hdiff
    · simpa using hplain
    · simpa using hwritten'
    · simpa using hjoined

end Fingerprint

open Fingerprint

/-- The pieces of a datum stand apart, or have one digit each. -/
def Datum.Legible (d : Datum) : Prop :=
  (pieces d).IsChain Piece.Apart ∨ ∀ p ∈ pieces d, p.Short

theorem Datum.Legible.pieces_eq {m n : Nat} {d e : Datum} (h : d.Legible) (hd : d.Plain m)
    (he : e.Plain n) (hjoined : Piece.joined (pieces d) = Piece.joined (pieces e)) :
    pieces d = pieces e := by
  have hcd := completes_pieces hd .done
  have hce := completes_pieces he .done
  rw [List.append_nil] at hcd hce
  rcases h with hapart | hshort
  · exact eq_of_apart hapart hcd hce le_rfl hjoined
  · exact eq_of_short hshort hcd hce le_rfl hjoined

theorem Datum.same_of_pieces_eq {m n : Nat} {d e : Datum} (hd : d.Plain m) (he : e.Plain n)
    (h : pieces d = pieces e) : d.Same e :=
  (same_of_pieces hd he (congrArg (· ++ []) h)).1

/-- **What streams tell apart.**  A datum shares its stream with one that is not the same, up to
    what streams are meant to forget, if and only if it does so with one of its lookalikes, of which
    there are finitely many.  A legible datum has its stream for itself, and a crowded one shares
    it. -/
theorem stream_tells_apart [Beyond] {d : Datum} {bs : Bytes} (hd : d.Plain deepest)
    (hstream : d.stream = some bs) :
    ((∃ e : Datum, e.Plain deepest ∧ e.stream = some bs ∧ ¬ d.Same e) ↔
      ∃ e ∈ d.lookalikes, e.Plain deepest ∧ e.stream = some bs ∧ ¬ d.Same e) ∧
    (d.Legible → ∀ e : Datum, e.Plain deepest → e.stream = some bs → d.Same e) ∧
    (d.Crowded → ∃ e : Datum, e.Plain deepest ∧ e.stream = some bs ∧ ¬ d.Same e) := by
  obtain ⟨hwritten, hbytes⟩ := (stream_eq_some_iff hd).1 hstream
  have hjoined : ∀ e : Datum, e.Plain deepest → e.stream = some bs →
      Piece.joined (pieces e) = Piece.joined (pieces d) := fun e he hestream =>
    charBytes_injective (((stream_eq_some_iff he).1 hestream).2.trans hbytes.symm)
  refine ⟨⟨?_, fun ⟨e, _, he⟩ => ⟨e, he⟩⟩, fun h e he hestream => ?_, fun h => ?_⟩
  · rintro ⟨e, he, hestream, hdiff⟩
    obtain ⟨r, hr, hplain, hpieces⟩ := Datum.exists_lookalike he (hjoined e he hestream)
    have hsame := Datum.same_of_pieces_eq hplain he hpieces
    refine ⟨r, hr, hplain, ?_, fun hdr => hdiff (hdr.trans hd hsame)⟩
    rw [stream_eq_some_iff he, ← hpieces] at hestream
    exact (stream_eq_some_iff hplain).2 hestream
  · exact Datum.same_of_pieces_eq hd he (h.pieces_eq hd he (hjoined e he hestream).symm)
  · obtain ⟨e, he, hewritten, hjoined, hdiff⟩ := exists_joined_of_crowded hd hwritten h
    exact ⟨e, he, (stream_eq_some_iff he).2 ⟨hewritten, hjoined ▸ hbytes⟩, hdiff⟩

/-- The pair of 1 and 2 has its stream for itself, and so has the list of 15; that of 1 and 23 does
    not. -/
theorem stream_tells_apart_pairs :
    (∀ e : Datum, e.Plain deepest → e.stream = (Datum.tuple [.int 1, .int 2]).stream →
      (Datum.tuple [.int 1, .int 2]).Same e) ∧
    (∀ e : Datum, e.Plain deepest → e.stream = (Datum.list [.int 15]).stream →
      (Datum.list [.int 15]).Same e) ∧
    ∃ e : Datum, e.Plain deepest ∧ e.stream = (Datum.tuple [.int 1, .int 23]).stream ∧
      ¬ (Datum.tuple [.int 1, .int 23]).Same e := by
  have hints : ∀ (d : Datum) (is : List Int), d.items? = some (is.map .int) → is.length ≤ 2 →
      (∀ i ∈ is, i.natAbs < 10 ^ 2) →
      d.Plain deepest ∧ d.stream = some (charBytes (Piece.joined (pieces d))) := by
    intro d is hd hlength his
    have hplain : d.Plain deepest := by
      refine .sequence (n := 7) hd ((List.length_map _).trans_le (hlength.trans (by decide))) ?_
      exact List.forall_mem_map.2 fun i _ => .int 7 i
    refine ⟨hplain, (stream_eq_some_iff hplain).2 ⟨?_, rfl⟩⟩
    rw [pieces_sequence hd]
    intro p hp
    rcases List.mem_cons.1 hp with rfl | hp
    · trivial
    · obtain ⟨e, he, hp⟩ := List.mem_flatMap.1 hp
      obtain ⟨i, hi, rfl⟩ := List.mem_map.1 he
      rw [List.mem_singleton.1 hp, written_ofInt]
      have htwo := (Nat.length_toDigits_le_iff (by decide) (by decide)).2 (his i hi)
      exact htwo.trans (by decide)
  refine ⟨?_, ?_, ?_⟩
  · obtain ⟨hd, hs⟩ := hints (.tuple [.int 1, .int 2]) [1, 2] rfl (by decide) (by decide)
    rw [hs]
    refine (stream_tells_apart hd hs).2.1 (.inr ?_)
    simp [pieces, allPieces, Piece.ofInt, Piece.Short]
  · obtain ⟨hd, hs⟩ := hints (.list [.int 15]) [15] rfl (by decide) (by decide)
    have hown : (Datum.list [.int 15]).lookalikes = [.list [.int 15]] := rfl
    rw [hs]
    intro e he hestream
    by_contra hdiff
    obtain ⟨r, hr, -, -, hdiff⟩ := (stream_tells_apart hd hs).1.1 ⟨e, he, hestream, hdiff⟩
    rw [hown, List.mem_singleton] at hr
    subst hr
    exact hdiff (Datum.same_of_pieces_eq hd hd rfl)
  · obtain ⟨hd, hs⟩ := hints (.tuple [.int 1, .int 23]) [1, 23] rfl (by decide) (by decide)
    rw [hs]
    exact (stream_tells_apart hd hs).2.2
      (@Datum.Crowded.numbers _ 1 23 [] [] rfl (by decide) (by decide))

end ExprLang
