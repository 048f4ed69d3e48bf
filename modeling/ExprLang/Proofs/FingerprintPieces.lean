/-
  The pieces of a fingerprint's stream.

  The stream of a datum is made of pieces: a word, a text, or a number with at most one mark before
  it.  A number behind the mark of a sequence or of a dictionary tells how many data follow.

  * `Datum.Plain` are the data within bounds, `Datum.Same` says that two of them are equal up to
    what a stream is meant to forget;
  * `stream_eq`, `written_of_stream`: the stream of a datum is its pieces in a row, and there is one
    if all numbers among them can be written;
  * `completes_pieces`, `same_of_pieces`: the pieces of a datum complete one datum, and tell what it
    is.
-/
import Mathlib
import ExprLang.Fingerprint
import ExprLang.Proofs.Generator

namespace ExprLang

open Sha256 (Bytes)

/-! ## Texts as bytes -/

namespace Fingerprint

theorem toList_loop (bs : ByteArray) (i : Nat) (r : List UInt8) :
    ByteArray.toList.loop bs i r = r.reverse ++ bs.data.toList.drop i := by
  fun_induction ByteArray.toList.loop bs i r with
  | case1 i r hi ih =>
    have hlt : i < bs.data.toList.length := hi
    have hget : bs.get! i = bs.data.toList[i] := getElem!_pos bs.data i hi
    rw [ih, List.reverse_cons, List.append_assoc, List.drop_eq_getElem_cons hlt, hget]
    rfl
  | case2 i r hi =>
    have hle : bs.data.toList.length ≤ i := Nat.not_lt.1 hi
    rw [List.drop_of_length_le hle, List.append_nil]

theorem textBytes_eq (s : String) : textBytes s = s.toByteArray.data.toList := toList_loop _ 0 []

def charBytes (cs : List Char) : Bytes := textBytes (String.ofList cs)

theorem charBytes_append (as bs : List Char) :
    charBytes (as ++ bs) = charBytes as ++ charBytes bs := by
  rw [charBytes, charBytes, charBytes, textBytes_eq, textBytes_eq, textBytes_eq,
    String.ofList_append, String.toByteArray_append, ByteArray.toList_data_append]

theorem charBytes_nil : charBytes [] = [] :=
  List.self_eq_append_left.1 (charBytes_append [] [])

theorem charBytes_injective {as bs : List Char} (h : charBytes as = charBytes bs) : as = bs := by
  rw [charBytes, charBytes, textBytes_eq, textBytes_eq] at h
  have hdata := ByteArray.ext (Array.ext' h)
  exact String.ofList_injective (String.toByteArray_inj.1 hdata)

theorem textBytes_toList (s : String) : textBytes s = charBytes s.toList := by
  rw [charBytes, String.ofList_toList]

theorem mark_eq (name : String) (n : Nat) :
    mark name n = charBytes (name.toList ++ Nat.toDigits 10 n) := by
  rw [mark, textBytes_toList, toList_label]

end Fingerprint

/-! ## Data -/

namespace Datum

variable {e : Datum}

/-- The members of a sequence, be it a list or a tuple. -/
def items? : Datum → Option (List Datum)
  | .list items | .tuple items => some items
  | _ => none

/-- Data made of nothing, truth values, whole numbers, texts, sequences and dictionaries, at most
    `n` of the last two inside each other.  A sequence has no more members than are looked at. -/
inductive Plain : Nat → Datum → Prop
  | null (n : Nat) : Plain n .null
  | bool (n : Nat) (b : Bool) : Plain n (.bool b)
  | int (n : Nat) (i : Int) : Plain n (.int i)
  | text (n : Nat) (s : String) : Plain n (.text s)
  | sequence {n : Nat} {d : Datum} {ds : List Datum} (hd : d.items? = some ds)
    (hlength : ds.length ≤ Fingerprint.longest) (h : ∀ e ∈ ds, Plain n e) : Plain (n + 1) d
  | dict {n : Nat} {ds : List (Datum × Datum)} (hkey : ∀ e ∈ ds, Plain n e.1)
    (hvalue : ∀ e ∈ ds, Plain n e.2) : Plain (n + 1) (.dict ds)

/-- Two data are equal, if a tuple counts as a list and the entries of a dictionary have no
    order. -/
inductive Same : Datum → Datum → Prop
  | null : Same .null .null
  | bool (b : Bool) : Same (.bool b) (.bool b)
  | int (i : Int) : Same (.int i) (.int i)
  | text (s : String) : Same (.text s) (.text s)
  | sequence {d e : Datum} {ds es : List Datum} (hd : d.items? = some ds) (he : e.items? = some es)
    (h : List.Forall₂ Same ds es) : Same d e
  | dict {ds ds' es es' : List (Datum × Datum)} (hd : ds.Perm ds') (he : es.Perm es')
    (hkey : List.Forall₂ Same (ds'.map Prod.fst) (es'.map Prod.fst))
    (hvalue : List.Forall₂ Same (ds'.map Prod.snd) (es'.map Prod.snd)) : Same (.dict ds) (.dict es)

theorem forall₂_entries {R : Datum → Datum → Prop} {ds es : List (Datum × Datum)} :
    List.Forall₂ (fun x y => R x.1 y.1 ∧ R x.2 y.2) ds es ↔
      List.Forall₂ R (ds.map Prod.fst) (es.map Prod.fst) ∧
        List.Forall₂ R (ds.map Prod.snd) (es.map Prod.snd) := by
  simp only [List.forall₂_map_left_iff, List.forall₂_map_right_iff]
  refine ⟨fun h => ⟨h.imp fun _ _ h => h.1, h.imp fun _ _ h => h.2⟩, ?_⟩
  rintro ⟨hkeys, hvalues⟩
  exact hkeys.mp (fun _ _ hkey hvalue => ⟨hkey, hvalue⟩) hvalues

theorem forall₂_trans {α : Type} {R : α → α → Prop} {xs ys zs : List α}
    (h : ∀ x ∈ xs, ∀ {y z : α}, R x y → R y z → R x z) (hxy : List.Forall₂ R xs ys)
    (hyz : List.Forall₂ R ys zs) : List.Forall₂ R xs zs := by
  induction hxy generalizing zs with
  | nil => exact hyz
  | @cons x y xs ys hxy _ ih =>
    cases hyz with
    | cons hyz hrest =>
      exact .cons (h x (.head xs) hxy hyz) (ih (fun x' hx => h x' (.tail x hx)) hrest)

/-- What is the same as a sequence is one with the same members. -/
theorem Same.items {d : Datum} {ds : List Datum} (h : d.Same e) (hd : d.items? = some ds) :
    ∃ es, e.items? = some es ∧ List.Forall₂ Same ds es := by
  cases h with
  | sequence hd' he hall =>
    rw [hd] at hd'
    cases hd'
    exact ⟨_, he, hall⟩
  | _ => cases hd

theorem Same.entries {ds : List (Datum × Datum)} (h : (Datum.dict ds).Same e) :
    ∃ es ds' es', e = .dict es ∧ ds.Perm ds' ∧ es.Perm es' ∧
      List.Forall₂ (fun x y => x.1.Same y.1 ∧ x.2.Same y.2) ds' es' := by
  cases h with
  | dict hd he hkey hvalue => exact ⟨_, _, _, rfl, hd, he, forall₂_entries.2 ⟨hkey, hvalue⟩⟩
  | sequence hd => cases hd

/-- **What is the same as something that is the same as a datum is the same as the datum.** -/
theorem Same.trans {n : Nat} {d f : Datum} (h : d.Plain n) (hde : d.Same e) (hef : e.Same f) :
    d.Same f := by
  induction h generalizing e f with
  | sequence hd _ _ ih =>
    obtain ⟨es, he, hds⟩ := hde.items hd
    obtain ⟨fs, hf, hes⟩ := hef.items he
    exact .sequence hd hf (forall₂_trans (fun x hx _ _ => ih x hx) hds hes)
  | @dict n ds _ _ ihkey ihvalue =>
    obtain ⟨es, ds', es', rfl, hds, hes, hall⟩ := hde.entries
    obtain ⟨fs, es'', fs', rfl, hes'', hfs, hall'⟩ := hef.entries
    -- The entries in the middle stand in two orders; the last ones follow the first of these.
    obtain ⟨fs'', hmiddle, hlast⟩ := List.perm_comp_forall₂ (hes.symm.trans hes'') hall'
    have hentry := forall₂_trans (fun x hx _ _ hxy hyz =>
      ⟨ihkey x (hds.mem_iff.2 hx) hxy.1 hyz.1, ihvalue x (hds.mem_iff.2 hx) hxy.2 hyz.2⟩) hall hmiddle
    obtain ⟨hkeys, hvalues⟩ := forall₂_entries.1 hentry
    exact .dict hds (hfs.trans hlast.symm) hkeys hvalues
  | _ =>
    cases hde with
    | sequence hd => cases hd
    | _ => exact hef

end Datum

/-! ## Pieces -/

namespace Fingerprint

variable {d : Datum} {n : Nat} {ps : List Piece}

/-- What stands before a number in a stream. -/
inductive Lead where
  | plain | minus | sequence | dictionary
deriving DecidableEq

namespace Lead

def chars : Lead → List Char
  | plain => []
  | minus => ['-']
  | sequence => ['L']
  | dictionary => ['D']

/-- How many data belong to a number with a mark before it. -/
def arity : Lead → Nat → Nat
  | plain, _ | minus, _ => 0
  | sequence, n => n
  | dictionary, n => 2 * n

end Lead

/-- A piece of a stream. -/
inductive Piece where
  | null
  | bool (b : Bool)
  | number (lead : Lead) (n : Nat)
  | text (s : String)

namespace Piece

def chars : Piece → List Char
  | null => ['N', 'o', 'n', 'e']
  | bool true => ['T', 'r', 'u', 'e']
  | bool false => ['F', 'a', 'l', 's', 'e']
  | number lead n => lead.chars ++ Nat.toDigits 10 n
  | text s => 's' :: s.toList

/-- How many data must follow a piece. -/
def arity : Piece → Nat
  | number lead n => lead.arity n
  | _ => 0

def ofInt : Int → Piece
  | .ofNat n => number .plain n
  | .negSucc n => number .minus (n + 1)

/-- A whole number has no more digits than it can be written with. -/
def Written : Piece → Prop
  | number .plain n | number .minus n => (Nat.toDigits 10 n).length ≤ mostDigits
  | _ => True

def joined (ps : List Piece) : List Char := ps.flatMap chars

end Piece

theorem joined_cons (p : Piece) (ps : List Piece) :
    Piece.joined (p :: ps) = p.chars ++ Piece.joined ps := rfl

theorem joined_singleton (p : Piece) : Piece.joined [p] = p.chars := List.append_nil _

theorem joined_append (ps qs : List Piece) :
    Piece.joined (ps ++ qs) = Piece.joined ps ++ Piece.joined qs := List.flatMap_append

mutual

def pieces : Datum → List Piece
  | .null => [.null]
  | .bool b => [.bool b]
  | .int i => [.ofInt i]
  | .text s => [.text s]
  | .list items => .number .sequence items.length :: allPieces items
  | .tuple items => .number .sequence items.length :: allPieces items
  | .dict entries =>
    .number .dictionary entries.length ::
      ((entryPieces entries).mergeSort fun a b => decide (a.1 ≤ b.1)).flatMap (·.2)
  | _ => []

def allPieces : List Datum → List Piece
  | [] => []
  | d :: ds => pieces d ++ allPieces ds

def entryPieces : List (Datum × Datum) → List (String × List Piece)
  | [] => []
  | (k, v) :: rest =>
    (Sha256.hexDigest (charBytes (Piece.joined (pieces k))), pieces k ++ pieces v) ::
      entryPieces rest

end

theorem allPieces_eq (ds : List Datum) : allPieces ds = ds.flatMap pieces := by
  induction ds with
  | nil => rfl
  | cons d ds ih => rw [allPieces, ih]; rfl

def keyPrint (e : Datum × Datum) : String :=
  Sha256.hexDigest (charBytes (Piece.joined (pieces e.1)))

def ordered (entries : List (Datum × Datum)) : List (Datum × Datum) :=
  entries.mergeSort fun a b => decide (keyPrint a ≤ keyPrint b)

theorem ordered_perm (es : List (Datum × Datum)) : (ordered es).Perm es := List.mergeSort_perm es _

theorem map_ordered {α : Type} (g : Datum × Datum → α) (es : List (Datum × Datum)) :
    (ordered es).map (fun e => (keyPrint e, g e)) =
      (es.map fun e => (keyPrint e, g e)).mergeSort fun a b => decide (a.1 ≤ b.1) :=
  List.map_mergeSort fun _ _ _ _ => rfl

theorem entryPieces_eq (es : List (Datum × Datum)) :
    entryPieces es = es.map fun e => (keyPrint e, pieces e.1 ++ pieces e.2) := by
  induction es with
  | nil => rfl
  | cons e es ih => rw [entryPieces, ih]; rfl

theorem pieces_dict (es : List (Datum × Datum)) :
    pieces (.dict es) = .number .dictionary es.length ::
      (ordered es).flatMap fun e => pieces e.1 ++ pieces e.2 := by
  rw [pieces, entryPieces_eq, ← map_ordered, List.flatMap_map]

theorem pieces_sequence {ds : List Datum} (h : d.items? = some ds) :
    pieces d = .number .sequence ds.length :: ds.flatMap pieces := by
  cases d with
  | list items =>
    cases h
    rw [pieces, allPieces_eq]
  | tuple items =>
    cases h
    rw [pieces, allPieces_eq]
  | _ => cases h

theorem charBytes_joined (ps qs : List Piece) :
    charBytes (Piece.joined (ps ++ qs)) =
      charBytes (Piece.joined ps) ++ charBytes (Piece.joined qs) := by
  rw [joined_append, charBytes_append]

theorem charBytes_flatMap {α : Type} (f : α → List Piece) (xs : List α) :
    charBytes (Piece.joined (xs.flatMap f)) =
      (xs.map fun x => charBytes (Piece.joined (f x))).flatten := by
  induction xs with
  | nil => exact charBytes_nil
  | cons x xs ih => rw [List.flatMap_cons, charBytes_joined, ih]; rfl

theorem mark_sequence (n : Nat) :
    mark "L" n = charBytes (Piece.joined [.number .sequence n]) := by
  rw [mark_eq, joined_singleton]
  rfl

theorem mark_dictionary (n : Nat) :
    mark "D" n = charBytes (Piece.joined [.number .dictionary n]) := by
  rw [mark_eq, joined_singleton]
  rfl

theorem joined_ofInt (i : Int) : Piece.joined [.ofInt i] = (toString i).toList := by
  cases i with
  | ofNat n =>
    rw [joined_singleton, show (toString (Int.ofNat n)).toList = Nat.toDigits 10 n from
      Nat.toList_repr]
    rfl
  | negSucc n =>
    have htext : toString (Int.negSucc n) = "-" ++ toString (n + 1) := rfl
    rw [joined_singleton, htext, toList_label]
    rfl

theorem written_ofInt (i : Int) :
    (Piece.ofInt i).Written ↔ (Nat.toDigits 10 i.natAbs).length ≤ mostDigits := by
  cases i <;> exact Iff.rfl

/-! ### Results that may be missing -/

theorem allOf_map {α β : Type} {f : α → Option β} {g : α → β} {xs : List α}
    (h : ∀ x ∈ xs, f x = some (g x)) : allOf (xs.map f) = some (xs.map g) := by
  induction xs with
  | nil => rfl
  | cons x xs ih =>
    rw [List.map_cons, allOf, h x (.head xs), ih fun y hy => h y (.tail x hy)]
    rfl

theorem exists_of_allOf {α : Type} {xs : List (Option α)} {ys : List α} (h : allOf xs = some ys) :
    ∀ x ∈ xs, ∃ y, x = some y := by
  induction xs generalizing ys with
  | nil => exact fun x hx => nomatch hx
  | cons x xs ih =>
    cases hx : x with
    | none => rw [hx] at h; cases h
    | some y =>
      cases hxs : allOf xs with
      | none => rw [hx, allOf, hxs] at h; cases h
      | some zs =>
        intro z hz
        rcases List.mem_cons.1 hz with rfl | hz
        · exact ⟨y, rfl⟩
        · exact ih hxs z hz

theorem exists_of_entryStream {key value : Option Bytes} {x : String × Bytes}
    (h : entryStream key value = some x) : ∃ k v, key = some k ∧ value = some v := by
  cases key with
  | none => cases h
  | some k =>
    cases value with
    | none => cases h
    | some v => exact ⟨k, v, rfl, rfl⟩

theorem unorderedStream_some {name : String} {parts : List (Option (String × Bytes))}
    {xs : List (String × Bytes)} (h : allOf parts = some xs) :
    unorderedStream name parts =
      some (mark name parts.length ++ ((inOrder xs).map (·.2)).flatten) := by
  rw [unorderedStream, h]
  rfl

theorem exists_of_unorderedStream {name : String} {parts : List (Option (String × Bytes))}
    {bs : Bytes} (h : unorderedStream name parts = some bs) : ∃ xs, allOf parts = some xs := by
  cases hparts : allOf parts with
  | none => rw [unorderedStream, hparts] at h; cases h
  | some xs => exact ⟨xs, rfl⟩

section

variable [Beyond]

variable {bs : Bytes} {d : Datum} {level : Nat}

theorem streams_eq (level : Nat) (ds : List Datum) :
    streams level ds = ds.map (stream (level + 1)) := by
  induction ds with
  | nil => rfl
  | cons d ds ih => rw [streams, ih]; rfl

theorem entryStreams_eq (level : Nat) (es : List (Datum × Datum)) :
    entryStreams level es =
      es.map fun e => entryStream (stream (level + 1) e.1) (stream (level + 1) e.2) := by
  induction es with
  | nil => rfl
  | cons e es ih => rw [entryStreams, ih]; rfl

theorem sequenceStream_some {members : List (Option Bytes)} {xs : List Bytes}
    (h : allOf members = some xs) (hlength : xs.length ≤ longest) :
    sequenceStream members = some (mark "L" xs.length ++ xs.flatten) := by
  rw [sequenceStream, h]
  simp only [Option.pure_def, Option.bind_eq_bind, Option.bind_some, if_pos hlength]

theorem exists_of_sequenceStream {members : List (Option Bytes)}
    (h : sequenceStream members = some bs) : ∃ xs, allOf members = some xs := by
  cases hmembers : allOf members with
  | none => rw [sequenceStream, hmembers] at h; cases h
  | some xs => exact ⟨xs, rfl⟩

theorem stream_sequence {ds : List Datum} (h : d.items? = some ds) (hlevel : level ≤ deepest) :
    stream level d = sequenceStream (ds.map (stream (level + 1))) := by
  rw [← streams_eq]
  cases d with
  | list items => cases h; rw [stream, if_neg (by omega)]
  | tuple items => cases h; rw [stream, if_neg (by omega)]
  | _ => cases h

theorem stream_dict (es : List (Datum × Datum)) (hlevel : level ≤ deepest) :
    stream level (.dict es) = unorderedStream "D"
      (es.map fun e => entryStream (stream (level + 1) e.1) (stream (level + 1) e.2)) := by
  rw [stream, if_neg (by omega), entryStreams_eq]

/-- **The stream of a datum is its pieces in a row**, if they can be written. -/
theorem stream_eq {n : Nat} (h : d.Plain n) (hwritten : ∀ p ∈ pieces d, p.Written)
    (hlevel : level + n ≤ deepest) :
    stream level d = some (charBytes (Piece.joined (pieces d))) := by
  induction h generalizing level with
  | null n =>
    rw [stream, if_neg (by omega), pieces]
    rfl
  | bool n b =>
    rw [stream, if_neg (by omega), pieces]
    cases b <;> rfl
  | int n i =>
    have hi := (written_ofInt i).1 (hwritten _ (.head _))
    rw [stream, if_neg (by omega), wholeStream, if_pos hi, pieces, joined_ofInt, textBytes_toList]
  | text n s =>
    rw [stream, if_neg (by omega), pieces, textBytes_toList, textBytes_toList, ← charBytes_append,
      joined_singleton]
    rfl
  | @sequence n d ds hd hlength _ ih =>
    rw [pieces_sequence hd] at hwritten ⊢
    have hmembers : ∀ e ∈ ds, stream (level + 1) e = some (charBytes (Piece.joined (pieces e))) :=
      fun e he => ih e he
        (fun p hp => hwritten p (.tail _ (List.mem_flatMap.2 ⟨e, he, hp⟩))) (by omega)
    rw [stream_sequence hd (by omega),
      sequenceStream_some (allOf_map hmembers) (by rwa [List.length_map]), List.length_map,
      ← List.singleton_append, charBytes_joined, charBytes_flatMap, mark_sequence]
  | @dict n es _ _ ihkey ihvalue =>
    rw [pieces_dict] at hwritten ⊢
    have hentry : ∀ e ∈ es, ∀ p ∈ pieces e.1 ++ pieces e.2, p.Written := fun e he p hp =>
      hwritten p (.tail _ (List.mem_flatMap.2 ⟨e, (ordered_perm es).mem_iff.2 he, hp⟩))
    have hentries : ∀ e ∈ es, entryStream (stream (level + 1) e.1) (stream (level + 1) e.2) =
        some (keyPrint e, charBytes (Piece.joined (pieces e.1 ++ pieces e.2))) := by
      intro e he
      rw [ihkey e he (fun p hp => hentry e he p (List.mem_append_left _ hp)) (by omega),
        ihvalue e he (fun p hp => hentry e he p (List.mem_append_right _ hp)) (by omega),
        charBytes_joined]
      rfl
    rw [stream_dict es (by omega), unorderedStream_some (allOf_map hentries), List.length_map,
      inOrder, ← map_ordered, List.map_map, ← List.singleton_append, charBytes_joined,
      charBytes_flatMap, mark_dictionary]
    rfl

theorem written_of_stream {n : Nat} (h : d.Plain n) (hlevel : level + n ≤ deepest)
    (hstream : stream level d = some bs) : ∀ p ∈ pieces d, p.Written := by
  induction h generalizing level bs with
  | null n => exact fun p hp => by rw [List.mem_singleton.1 hp]; trivial
  | bool n b => exact fun p hp => by rw [List.mem_singleton.1 hp]; trivial
  | text n s => exact fun p hp => by rw [List.mem_singleton.1 hp]; trivial
  | int n i =>
    intro p hp
    rw [List.mem_singleton.1 hp, written_ofInt]
    by_contra hi
    rw [stream, if_neg (by omega), wholeStream, if_neg hi] at hstream
    cases hstream
  | @sequence n d ds hd _ _ ih =>
    rw [stream_sequence hd (by omega)] at hstream
    obtain ⟨xs, hxs⟩ := exists_of_sequenceStream hstream
    rw [pieces_sequence hd]
    intro p hp
    rcases List.mem_cons.1 hp with rfl | hp
    · trivial
    · obtain ⟨e, he, hp⟩ := List.mem_flatMap.1 hp
      obtain ⟨bs', hbs'⟩ := exists_of_allOf hxs _ (List.mem_map_of_mem he)
      exact ih e he (by omega) hbs' p hp
  | @dict n es _ _ ihkey ihvalue =>
    rw [stream_dict es (by omega)] at hstream
    obtain ⟨xs, hxs⟩ := exists_of_unorderedStream hstream
    rw [pieces_dict]
    intro p hp
    rcases List.mem_cons.1 hp with rfl | hp
    · trivial
    · obtain ⟨e, he, hp⟩ := List.mem_flatMap.1 hp
      have hmem : e ∈ es := (ordered_perm es).mem_iff.1 he
      obtain ⟨x, hx⟩ := exists_of_allOf hxs _ (List.mem_map_of_mem hmem)
      obtain ⟨k, v, hk, hv⟩ := exists_of_entryStream hx
      rcases List.mem_append.1 hp with hp | hp
      · exact ihkey e hmem (by omega) hk p hp
      · exact ihvalue e hmem (by omega) hv p hp

theorem stream_eq_some_iff (h : d.Plain deepest) : d.stream = some bs ↔
      (∀ p ∈ pieces d, p.Written) ∧ charBytes (Piece.joined (pieces d)) = bs := by
  have hlevel : 0 + deepest ≤ deepest := (Nat.zero_add _).le
  constructor
  · intro hstream
    have hwritten := written_of_stream h hlevel hstream
    rw [Datum.stream, stream_eq h hwritten hlevel] at hstream
    exact ⟨hwritten, Option.some.inj hstream⟩
  · rintro ⟨hwritten, rfl⟩
    exact stream_eq h hwritten hlevel

end

/-! ## Complete rows of pieces -/

/-- The pieces are those of `n` data: each piece is part of one, and opens as many as it has to be
    followed by. -/
inductive Completes : Nat → List Piece → Prop
  | done : Completes 0 []
  | piece {n : Nat} {p : Piece} {ps : List Piece} (h : Completes (n + p.arity) ps) :
    Completes (n + 1) (p :: ps)

theorem Completes.unique {m : Nat} (hm : Completes m ps) (hn : Completes n ps) : m = n := by
  induction hm generalizing n with
  | done => cases hn; rfl
  | piece _ ih =>
    cases hn with
    | piece hn =>
      have hsame := ih hn
      omega

theorem completes_flatMap {α : Type} {f : α → List Piece} {c : Nat} {xs : List α}
    (h : ∀ x ∈ xs, ∀ {k : Nat} {ps : List Piece}, Completes k ps → Completes (k + c) (f x ++ ps))
    {k : Nat} (hps : Completes k ps) : Completes (k + c * xs.length) (xs.flatMap f ++ ps) := by
  induction xs with
  | nil => exact hps
  | cons x xs ih =>
    have hrest := h x (.head xs) (ih fun y hy => h y (.tail x hy))
    rw [List.flatMap_cons, List.append_assoc, List.length_cons, Nat.mul_succ, ← Nat.add_assoc]
    exact hrest

theorem completes_pieces (h : d.Plain n) {k : Nat} (hps : Completes k ps) :
    Completes (k + 1) (pieces d ++ ps) := by
  induction h generalizing k ps with
  | null n => exact .piece hps
  | bool n b => exact .piece hps
  | int n i =>
    cases i with
    | ofNat m => exact .piece hps
    | negSucc m => exact .piece hps
  | text n s => exact .piece hps
  | @sequence n d ds hd _ _ ih =>
    have hmembers := completes_flatMap (c := 1) (fun e he _ _ hqs => ih e he hqs) hps
    rw [Nat.one_mul] at hmembers
    rw [pieces_sequence hd]
    exact .piece hmembers
  | @dict n es _ _ ihkey ihvalue =>
    have hentries : Completes (k + 2 * (ordered es).length)
        (((ordered es).flatMap fun e => pieces e.1 ++ pieces e.2) ++ ps) := by
      refine completes_flatMap (fun e he k' qs hqs => ?_) hps
      have hmem : e ∈ es := (ordered_perm es).mem_iff.1 he
      rw [List.append_assoc]
      exact ihkey e hmem (ihvalue e hmem hqs)
    rw [(ordered_perm es).length_eq] at hentries
    rw [pieces_dict]
    exact .piece hentries

/-! ## From pieces to data -/

theorem forall₂_of_flatMap {α : Type} {f : α → List Piece} {R : α → α → Prop} {xs ys : List α}
    (h : ∀ x ∈ xs, ∀ y ∈ ys, ∀ r s, f x ++ r = f y ++ s → R x y ∧ r = s)
    (hlength : xs.length = ys.length) {r s : List Piece}
    (heq : xs.flatMap f ++ r = ys.flatMap f ++ s) : List.Forall₂ R xs ys ∧ r = s := by
  induction xs generalizing ys with
  | nil =>
    rw [List.length_nil] at hlength
    rw [List.length_eq_zero_iff.1 hlength.symm] at heq ⊢
    exact ⟨.nil, heq⟩
  | cons x xs ih =>
    cases ys with
    | nil => cases hlength
    | cons y ys =>
      rw [List.flatMap_cons, List.flatMap_cons, List.append_assoc, List.append_assoc] at heq
      obtain ⟨hxy, hrest⟩ := h x (.head xs) y (.head ys) _ _ heq
      obtain ⟨hall, hrs⟩ := ih (fun x' hx y' hy => h x' (.tail x hx) y' (.tail y hy))
        (Nat.succ.inj hlength) hrest
      exact ⟨.cons hxy hall, hrs⟩

theorem ofInt_inj {i j : Int} (h : Piece.ofInt i = Piece.ofInt j) : i = j := by
  cases i <;> cases j <;>
    simp only [Piece.ofInt, Piece.number.injEq, reduceCtorEq, false_and, true_and] at h
  · rw [h]
  · rw [Nat.succ.inj h]

/-- **The pieces of a datum tell what it is**, and where they end. -/
theorem same_of_pieces {m : Nat} {e : Datum} (hd : d.Plain m) (he : e.Plain n) {r s : List Piece}
    (h : pieces d ++ r = pieces e ++ s) : d.Same e ∧ r = s := by
  induction hd generalizing n e r s with
  | null m =>
    cases he with
    | null =>
      obtain ⟨_, hrs⟩ := List.cons.inj h
      exact ⟨.null, hrs⟩
    | int n j => cases j <;> simp [pieces, Piece.ofInt] at h
    | sequence he => simp [pieces, pieces_sequence he] at h
    | _ => simp [pieces] at h
  | bool m b =>
    cases he with
    | bool n b' =>
      simp only [pieces, List.cons_append, List.nil_append, List.cons.injEq, Piece.bool.injEq] at h
      exact ⟨h.1 ▸ .bool b, h.2⟩
    | int n j => cases j <;> simp [pieces, Piece.ofInt] at h
    | sequence he => simp [pieces, pieces_sequence he] at h
    | _ => simp [pieces] at h
  | int m i =>
    cases he with
    | int n j =>
      simp only [pieces, List.cons_append, List.nil_append, List.cons.injEq] at h
      exact ⟨ofInt_inj h.1 ▸ .int i, h.2⟩
    | sequence he => cases i <;> simp [pieces, Piece.ofInt, pieces_sequence he] at h
    | _ => cases i <;> simp [pieces, Piece.ofInt] at h
  | text m t =>
    cases he with
    | text n t' =>
      simp only [pieces, List.cons_append, List.nil_append, List.cons.injEq, Piece.text.injEq] at h
      exact ⟨h.1 ▸ .text t, h.2⟩
    | int n j => cases j <;> simp [pieces, Piece.ofInt] at h
    | sequence he => simp [pieces, pieces_sequence he] at h
    | _ => simp [pieces] at h
  | @sequence m d ds hd _ _ ih =>
    rw [pieces_sequence hd] at h
    cases he with
    | @sequence n e es he _ hes =>
      simp only [pieces_sequence he, List.cons_append, List.cons.injEq, Piece.number.injEq,
        true_and] at h
      obtain ⟨hlength, hmembers⟩ := h
      obtain ⟨hall, hrs⟩ := forall₂_of_flatMap
        (fun x hx y hy r' s' heq => ih x hx (hes y hy) heq) hlength hmembers
      exact ⟨.sequence hd he hall, hrs⟩
    | int n j => cases j <;> simp [pieces, Piece.ofInt] at h
    | _ => simp [pieces] at h
  | @dict m ds _ _ ihkey ihvalue =>
    rw [pieces_dict] at h
    cases he with
    | @dict n es hkey hvalue =>
      simp only [pieces_dict, List.cons_append, List.cons.injEq, Piece.number.injEq, true_and] at h
      obtain ⟨hlength, hentries⟩ := h
      have hds := ordered_perm ds
      have hes := ordered_perm es
      obtain ⟨hall, hrs⟩ := forall₂_of_flatMap (R := fun x y => x.1.Same y.1 ∧ x.2.Same y.2)
        (fun x hx y hy r' s' heq => by
          rw [List.append_assoc, List.append_assoc] at heq
          obtain ⟨hkeys, hrest⟩ := ihkey x (hds.mem_iff.1 hx) (hkey y (hes.mem_iff.1 hy)) heq
          obtain ⟨hvalues, hrs⟩ := ihvalue x (hds.mem_iff.1 hx) (hvalue y (hes.mem_iff.1 hy)) hrest
          exact ⟨⟨hkeys, hvalues⟩, hrs⟩)
        (hds.length_eq.trans (hlength.trans hes.length_eq.symm)) hentries
      obtain ⟨hkeys, hvalues⟩ := Datum.forall₂_entries.1 hall
      exact ⟨.dict hds.symm hes.symm hkeys hvalues, hrs⟩
    | int n j => cases j <;> simp [pieces, Piece.ofInt] at h
    | sequence he => simp [pieces_sequence he] at h
    | _ => simp [pieces] at h

end Fingerprint

end ExprLang
