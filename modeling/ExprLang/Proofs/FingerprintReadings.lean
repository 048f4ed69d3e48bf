/-
  The readings of a stream.

  Nothing ends a piece of a stream: a numeral goes on in the digits of the next number, and a text
  in whatever follows it.  So the same characters may be read as several rows of pieces.

  * `readings` are all rows of pieces that some characters can be read as, see `mem_readings_iff`;
  * `dataOf` are the data that a row of pieces tells of, see `exists_rebuilt`;
  * `Datum.lookalikes` are the data that the readings of a datum's own characters tell of; by
    `exists_lookalike` there are no others with these characters.
-/
import ExprLang.Proofs.FingerprintPieces

namespace ExprLang

namespace Fingerprint

variable {c : Char} {n : Nat} {cs : List Char} {ps : List Piece}

/-! ## How pieces start -/

/-- How a piece starts. -/
inductive Shape where
  | null
  | bool (b : Bool)
  | number (lead : Lead)
  | text

def Shape.ofChar : Char → Shape
  | 'N' => null
  | 'T' => bool true
  | 'F' => bool false
  | 's' => text
  | '-' => number .minus
  | 'L' => number .sequence
  | 'D' => number .dictionary
  | _ => number .plain

namespace Piece

def shape : Piece → Shape
  | null => .null
  | bool b => .bool b
  | number lead _ => .number lead
  | text _ => .text

end Piece

theorem ofChar_digit (h : c.isDigit = true) : Shape.ofChar c = .number .plain := by
  unfold Shape.ofChar
  split
  all_goals first | rfl | exact absurd h (by decide)

theorem toDigits_digits (h : c ∈ Nat.toDigits 10 n) : c.isDigit = true :=
  Nat.isDigit_of_mem_toDigits (by decide) (by decide) h

theorem ofChar_head (p : Piece) : ∃ c cs, p.chars = c :: cs ∧ Shape.ofChar c = p.shape := by
  rcases p with _ | b | ⟨lead, n⟩ | s
  · exact ⟨'N', _, rfl, rfl⟩
  · cases b
    · exact ⟨'F', _, rfl, rfl⟩
    · exact ⟨'T', _, rfl, rfl⟩
  · cases lead
    · obtain ⟨c, cs, hcs⟩ := List.exists_cons_of_ne_nil (Nat.toDigits_ne_nil (n := n) (b := 10))
      have hdigit : c.isDigit = true := toDigits_digits (n := n) (hcs ▸ .head cs)
      exact ⟨c, cs, hcs, ofChar_digit hdigit⟩
    · exact ⟨'-', _, rfl, rfl⟩
    · exact ⟨'L', _, rfl, rfl⟩
    · exact ⟨'D', _, rfl, rfl⟩
  · exact ⟨'s', _, rfl, rfl⟩

theorem chars_number (lead : Lead) (n : Nat) :
    (Piece.number lead n).chars = lead.chars ++ Nat.toDigits 10 n := rfl

/-! ## Readings -/

/-- What characters would have to be, if they were a piece that starts so. -/
def Shape.piece (cs : List Char) : Shape → Piece
  | null => .null
  | bool b => .bool b
  | number lead => .number lead (Nat.ofDigitChars 10 (cs.drop lead.chars.length) 0)
  | text => .text (.ofList cs.tail)

def Piece.ofChars? : List Char → Option Piece
  | [] => none
  | c :: cs =>
    let p := (Shape.ofChar c).piece (c :: cs)
    if p.chars = c :: cs then some p else none

theorem piece_shape (p : Piece) : p.shape.piece p.chars = p := by
  rcases p with _ | b | ⟨lead, n⟩ | s
  · rfl
  · rfl
  · rw [chars_number, Piece.shape, Shape.piece, List.drop_left, Nat.ofDigitChars_ten_toDigits]
  · exact congrArg Piece.text String.ofList_toList

theorem ofChars?_eq_some_iff {p : Piece} : Piece.ofChars? cs = some p ↔ p.chars = cs := by
  constructor
  · intro h
    cases cs with
    | nil => cases h
    | cons c cs =>
      rw [Piece.ofChars?] at h
      split at h
      · next hchars => rwa [← Option.some.inj h]
      · cases h
  · rintro rfl
    obtain ⟨c, cs, hp, hshape⟩ := ofChar_head p
    have hpiece : (Shape.ofChar c).piece (c :: cs) = p := by rw [hshape, ← hp, piece_shape]
    rw [hp, Piece.ofChars?]
    simp only [hpiece, hp, if_true]

/-- The rows of pieces that complete `n` data, where the first piece has started with some
    characters and goes on in the others. -/
def readingsFrom : Nat → List Char → List Char → List (List Piece)
  | n, start, [] => if n = 0 ∧ start = [] then [[]] else []
  | n, start, c :: cs =>
    let ended := (Piece.ofChars? (start ++ [c])).toList.flatMap fun p =>
      (readingsFrom (n - 1 + p.arity) [] cs).map (p :: ·)
    (if n = 0 then [] else ended) ++ readingsFrom n (start ++ [c]) cs

def readings (n : Nat) (cs : List Char) : List (List Piece) := readingsFrom n [] cs

theorem mem_readingsFrom_cons {start : List Char} : ps ∈ readingsFrom n start (c :: cs) ↔
      (∃ k p qs, n = k + 1 ∧ p.chars = start ++ [c] ∧ qs ∈ readingsFrom (k + p.arity) [] cs ∧
        ps = p :: qs) ∨ ps ∈ readingsFrom n (start ++ [c]) cs := by
  rw [readingsFrom, List.mem_append]
  refine or_congr_left ?_
  cases n with
  | zero => simp
  | succ k =>
    simp only [Nat.succ_ne_zero, if_false, List.mem_flatMap, Option.mem_toList,
      ofChars?_eq_some_iff, List.mem_map, Nat.add_sub_cancel]
    constructor
    · rintro ⟨p, hp, qs, hqs, rfl⟩
      exact ⟨k, p, qs, rfl, hp, hqs, rfl⟩
    · rintro ⟨k', p, qs, hk, hp, hqs, rfl⟩
      cases hk
      exact ⟨p, hp, qs, hqs, rfl⟩

theorem mem_readingsFrom {start : List Char} :
    ps ∈ readingsFrom n start cs ↔ Completes n ps ∧ Piece.joined ps = start ++ cs ∧
      ∀ p ∈ ps.head?, start.length < p.chars.length := by
  induction cs generalizing n start ps with
  | nil =>
    rw [readingsFrom, List.append_nil]
    constructor
    · intro h
      split at h
      · next hn =>
        obtain ⟨rfl, rfl⟩ := hn
        rw [List.mem_singleton.1 h]
        exact ⟨.done, rfl, fun p hp => nomatch hp⟩
      · cases h
    · rintro ⟨hps, hjoined, hfirst⟩
      cases hps with
      | done =>
        cases hjoined
        exact .head _
      | @piece n p ps _ =>
        have hlength := congrArg List.length hjoined
        have hlt := hfirst p rfl
        rw [joined_cons, List.length_append] at hlength
        omega
  | cons c cs ih =>
    rw [mem_readingsFrom_cons]
    constructor
    · rintro (⟨k, p, qs, rfl, hp, hqs, rfl⟩ | h)
      · obtain ⟨hqs, hjoined, -⟩ := ih.1 hqs
        refine ⟨.piece hqs, ?_, ?_⟩
        · rw [joined_cons, hp, hjoined, List.append_assoc]
          rfl
        · intro q hq
          cases hq
          rw [hp, List.length_append]
          exact Nat.lt_succ_self _
      · obtain ⟨hps, hjoined, hfirst⟩ := ih.1 h
        rw [List.append_assoc] at hjoined
        refine ⟨hps, hjoined, fun p hp => ?_⟩
        have hlt := hfirst p hp
        rw [List.length_append] at hlt
        exact Nat.lt_of_succ_lt hlt
    · rintro ⟨hps, hjoined, hfirst⟩
      cases hps with
      | done =>
        exact absurd hjoined.symm
          (List.append_ne_nil_of_right_ne_nil start (List.cons_ne_nil c cs))
      | @piece n p qs hqs =>
        rw [joined_cons] at hjoined
        have hlt := hfirst p rfl
        -- The first piece ends with the next character, or goes on behind it.
        have hnext : start ++ [c] <+: start ++ c :: cs := ⟨cs, List.append_assoc _ _ _⟩
        obtain ⟨rest, hrest⟩ := List.prefix_of_prefix_length_le hnext ⟨_, hjoined⟩
          (by rw [List.length_append]; exact hlt)
        rw [← hrest, List.append_assoc, List.append_assoc] at hjoined
        have hcs : rest ++ Piece.joined qs = cs := by
          simpa using hjoined
        cases rest with
        | nil =>
          refine .inl ⟨n, p, qs, rfl, by rw [← hrest, List.append_nil], ih.2 ⟨hqs, hcs, ?_⟩, rfl⟩
          intro q _
          obtain ⟨c', cs', hq, _⟩ := ofChar_head q
          rw [hq]
          exact Nat.succ_pos _
        | cons c' rest =>
          refine .inr (ih.2 ⟨.piece hqs, ?_, ?_⟩)
          · rw [joined_cons, ← hrest, ← hcs, List.append_assoc]
          · intro q hq
            cases hq
            rw [← hrest]
            simp

/-- **The readings of some characters** are the rows of pieces that have them. -/
theorem mem_readings_iff : ps ∈ readings n cs ↔ Completes n ps ∧ Piece.joined ps = cs := by
  rw [readings, mem_readingsFrom, List.nil_append]
  refine and_congr_right fun _ => and_iff_left fun p _ => ?_
  obtain ⟨c, cs, hp, _⟩ := ofChar_head p
  rw [hp]
  exact Nat.succ_pos _

/-! ## The data that pieces tell of -/

/-- Data two by two. -/
def inPairs : List Datum → List (Datum × Datum)
  | k :: v :: rest => (k, v) :: inPairs rest
  | _ => []

/-- The data that a piece makes of those behind it. -/
def Piece.put : Piece → List Datum → List Datum
  | null, ds => .null :: ds
  | bool b, ds => .bool b :: ds
  | number .plain n, ds => .int n :: ds
  | number .minus n, ds => .int (-n) :: ds
  | number .sequence n, ds => .list (ds.take n) :: ds.drop n
  | number .dictionary n, ds => .dict (inPairs (ds.take (2 * n))) :: ds.drop (2 * n)
  | text s, ds => .text s :: ds

def dataOf (ps : List Piece) : List Datum := ps.foldr Piece.put []

theorem dataOf_cons (p : Piece) (ps : List Piece) : dataOf (p :: ps) = p.put (dataOf ps) := rfl

theorem dataOf_flatMap {α : Type} {f : α → List Piece} {g : α → List Datum} {xs : List α}
    (h : ∀ x ∈ xs, ∀ ps, dataOf (f x ++ ps) = g x ++ dataOf ps) (ps : List Piece) :
    dataOf (xs.flatMap f ++ ps) = xs.flatMap g ++ dataOf ps := by
  induction xs with
  | nil => rfl
  | cons x xs ih =>
    rw [List.flatMap_cons, List.append_assoc, h x (.head xs), ih fun y hy => h y (.tail x hy),
      List.flatMap_cons, List.append_assoc]

theorem inPairs_flatMap {α : Type} (g : α → Datum × Datum) (xs : List α) :
    inPairs (xs.flatMap fun x => [(g x).1, (g x).2]) = xs.map g := by
  induction xs with
  | nil => rfl
  | cons x xs ih => exact congrArg (g x :: ·) ih

/-- What is in the order of some keys stays so, where each member gives way to one with the same
    key. -/
theorem mergeSort_map {α : Type} {key : α → String} {g : α → α} {xs : List α}
    (h : ∀ x ∈ xs, key (g x) = key x) :
    ((xs.mergeSort fun a b => decide (key a ≤ key b)).map g).mergeSort
        (fun a b => decide (key a ≤ key b)) =
      (xs.mergeSort fun a b => decide (key a ≤ key b)).map g := by
  have hsorted : (xs.mergeSort fun a b => decide (key a ≤ key b)).Pairwise
      fun a b => decide (key a ≤ key b) = true := by
    refine List.pairwise_mergeSort (fun a b c hab hbc => ?_) (fun a b => ?_) xs
    · exact decide_eq_true (String.le_trans (of_decide_eq_true hab) (of_decide_eq_true hbc))
    · simpa using String.le_total (key a) (key b)
  refine List.mergeSort_of_pairwise (List.pairwise_map.2 (hsorted.imp_of_mem ?_))
  intro a b ha hb hle
  rwa [h a (List.mem_mergeSort.1 ha), h b (List.mem_mergeSort.1 hb)]

instance : Nonempty Datum := ⟨.null⟩

/-- **The pieces of a datum tell of one**, which has the same pieces. -/
theorem exists_rebuilt {d : Datum} (h : d.Plain n) : ∃ e : Datum, e.Plain n ∧ pieces e = pieces d ∧
      ∀ ps, dataOf (pieces d ++ ps) = e :: dataOf ps := by
  induction h with
  | null n => exact ⟨.null, .null n, rfl, fun _ => rfl⟩
  | bool n b => exact ⟨.bool b, .bool n b, rfl, fun _ => rfl⟩
  | text n s => exact ⟨.text s, .text n s, rfl, fun _ => rfl⟩
  | int n i =>
    refine ⟨.int i, .int n i, rfl, fun ps => ?_⟩
    cases i <;> rfl
  | @sequence n d ds hd hlength _ ih =>
    choose! f hplain hpieces hdata using ih
    have hmembers : (ds.map f).flatMap pieces = ds.flatMap pieces := by
      rw [List.flatMap_map]
      exact List.flatMap_congr hpieces
    refine ⟨.list (ds.map f), .sequence rfl (by rwa [List.length_map]) ?_, ?_, fun ps => ?_⟩
    · exact List.forall_mem_map.2 hplain
    · rw [pieces_sequence hd, pieces_sequence (d := .list (ds.map f)) rfl, List.length_map, hmembers]
    · have hrow := dataOf_flatMap (g := fun d => [f d]) hdata ps
      have hlength' : (ds.map f).length = ds.length := List.length_map f
      rw [← List.map_eq_flatMap] at hrow
      rw [pieces_sequence hd, List.cons_append, dataOf_cons, hrow, Piece.put,
        ← hlength', List.take_left, List.drop_left]
  | @dict n es hkey hvalue ihkey ihvalue =>
    choose! f hfplain hfpieces hfdata using ihkey
    choose! g hgplain hgpieces hgdata using ihvalue
    have hsub : ∀ e ∈ ordered es, e ∈ es := fun e => (ordered_perm es).mem_iff.1
    have hkeys : ∀ e ∈ es, keyPrint (f e, g e) = keyPrint e := fun e he => by
      rw [keyPrint, keyPrint, hfpieces e he]
    have hordered : ordered ((ordered es).map fun e => (f e, g e)) =
        (ordered es).map fun e => (f e, g e) := mergeSort_map hkeys
    have hlength := (ordered_perm es).length_eq
    refine ⟨.dict ((ordered es).map fun e => (f e, g e)), .dict ?_ ?_, ?_, fun ps => ?_⟩
    · exact List.forall_mem_map.2 fun e he => hfplain e (hsub e he)
    · exact List.forall_mem_map.2 fun e he => hgplain e (hsub e he)
    · rw [pieces_dict, pieces_dict, hordered, List.length_map, hlength, List.flatMap_map]
      refine congrArg _ (List.flatMap_congr fun e he => ?_)
      rw [hfpieces e (hsub e he), hgpieces e (hsub e he)]
    · have hentry : ∀ e ∈ ordered es, ∀ qs,
          dataOf (pieces e.1 ++ pieces e.2 ++ qs) = [f e, g e] ++ dataOf qs := by
        intro e he qs
        rw [List.append_assoc, hfdata e (hsub e he), hgdata e (hsub e he)]
        rfl
      have hrow := dataOf_flatMap hentry ps
      have hsize : ((ordered es).flatMap fun e => [f e, g e]).length = 2 * es.length := by
        simp [List.length_flatMap, hlength, Nat.mul_comm]
      rw [pieces_dict, List.cons_append, dataOf_cons, hrow, Piece.put, ← hsize, List.take_left,
        List.drop_left, inPairs_flatMap fun e => (f e, g e)]

end Fingerprint

/-! ## Lookalikes -/

namespace Datum

open Fingerprint

/-- The data that the readings of the characters of a datum tell of.  It is one of them itself, up
    to what streams are meant to forget. -/
def lookalikes (d : Datum) : List Datum :=
  (readings 1 (Piece.joined (pieces d))).flatMap dataOf

-- The length of a list can take digits from the numbers in the list.
example : Piece.joined (pieces (.list [.list [.int 10], .int 12345678901])) =
    Piece.joined (pieces (.list
      [.list [.int 0, .int 1, .int 2, .int 3, .int 4, .int 5, .int 6, .int 7, .int 8, .int 9, .int 0],
       .int 1])) := by decide

theorem exists_lookalike {n : Nat} {d e : Datum} (he : e.Plain n)
    (hjoined : Piece.joined (pieces e) = Piece.joined (pieces d)) :
    ∃ r ∈ d.lookalikes, r.Plain n ∧ pieces r = pieces e := by
  obtain ⟨r, hr, hpieces, hdata⟩ := exists_rebuilt he
  have hcompletes := completes_pieces he .done
  have hrow := hdata []
  rw [List.append_nil] at hcompletes hrow
  refine ⟨r, List.mem_flatMap.2 ⟨pieces e, mem_readings_iff.2 ⟨hcompletes, hjoined⟩, ?_⟩, hr, hpieces⟩
  rw [hrow]
  exact .head _

end Datum

end ExprLang
