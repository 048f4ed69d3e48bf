/-
  Chains of operators.

  A chain is an operand, and then any number of operators with an operand behind each.  Many trees
  have the same chain of operands and operators; in an ordered one no operator stands below one that
  binds tighter, and operators of one level group to the left.

  * `Group.eq_of_ordered`: a chain has at most one ordered tree, and `grouped` is one;
  * `steps_group`: the machine reads the tokens of an ordered tree as that tree, wherever its
    operators bind tighter than what stands before it;
  * `parse_group`, `parse_chain`: so a text that is a chain is read as its ordered tree.
-/
import ExprLang.Proofs.Lexing
import ExprLang.Proofs.ParsePatterns

namespace ExprLang

/-! ## Chains and their trees -/

/-- How tight an operator binds. -/
def BinOp.level : BinOp → Nat
  | or | nor | xor => 1
  | imp => 2
  | and | nand => 3
  | eqs | neqs | eq | neq => 4
  | lt | gt | le | ge => 5
  | plus | minus => 6
  | times | divide => 7

theorem BinOp.level_pos (op : BinOp) : 0 < op.level := by cases op <;> decide

theorem BinOp.level_lt (op : BinOp) : op.level < 8 := by cases op <;> decide

/-- An operand of one token. -/
inductive Atom where
  | number (s : String)
  | name (x : String)
  | bool (b : Bool)
  | string (s : String)
  | char (s : String)

namespace Atom

def piece : Atom → Piece
  | number s => ⟨.number, s⟩
  | name x => .name x
  | bool b => .word (if b then .true_ else .false_)
  | string s => ⟨.string, s⟩
  | char s => ⟨.char, s⟩

def expr : Atom → Expr
  | number s => .number .unknown s
  | name x => .var .unknown x
  | bool b => .bool .unknown b
  | string s => .string .unknown s
  | char s => .char .unknown s

end Atom

/-- An atom behind any number of operators. -/
structure Operand where
  signs : List UnOp
  atom : Atom

namespace Operand

def pieces (x : Operand) : List Piece := x.signs.map UnOp.piece ++ [x.atom.piece]

/-- The expression that an operand is: the operators apply to nothing but the atom. -/
def expr (x : Operand) : Expr := x.signs.foldr (.unary .unknown) x.atom.expr

end Operand

/-- An operator and the operand behind it. -/
abbrev Link := BinOp × Operand

def chainPieces (x : Operand) (links : List Link) : List Piece :=
  x.pieces ++ links.flatMap fun l => l.1.piece :: l.2.pieces

theorem chainPieces_append (x : Operand) (links : List Link) (op : BinOp) (y : Operand)
    (more : List Link) : chainPieces x (links ++ (op, y) :: more) =
      chainPieces x links ++ op.piece :: chainPieces y more := by
  simp [chainPieces]

/-- The trees with operators between operands. -/
inductive Group where
  | operand (x : Operand)
  | binary (op : BinOp) (left right : Group)

namespace Group

variable {g : Group}

def first : Group → Operand
  | operand x => x
  | binary _ l _ => l.first

/-- The operators from left to right, with the operand behind each. -/
def links : Group → List Link
  | operand _ => []
  | binary op l r => l.links ++ (op, r.first) :: r.links

def expr : Group → Expr
  | operand x => x.expr
  | binary op l r => .binary .unknown op l.expr r.expr

/-- How tight a tree binds its parts: an operand binds tighter than every operator. -/
def level : Group → Nat
  | operand _ => 8
  | binary op _ _ => op.level

/-- What stands on the left of an operator binds at least as tight as the operator, and what stands
    on the right binds tighter. -/
def Ordered : Group → Prop
  | operand _ => True
  | binary op l r => op.level ≤ l.level ∧ op.level < r.level ∧ l.Ordered ∧ r.Ordered

/-! ## There is one ordered tree for a chain -/

/-- Every operator of an ordered tree binds at least as tight as the tree. -/
theorem Ordered.level_le (h : g.Ordered) : ∀ l ∈ g.links, g.level ≤ l.1.level := by
  induction g with
  | operand x => simp [links]
  | binary op l r ihl ihr =>
    obtain ⟨hl, hr, hol, hor⟩ := h
    intro link hm
    simp only [links, List.mem_append, List.mem_cons] at hm
    obtain hm | rfl | hm := hm
    · exact hl.trans (ihl hol link hm)
    · exact le_refl op.level
    · exact hr.le.trans (ihr hor link hm)

/-- The topmost operator of an ordered tree is the last of the loosest. -/
theorem split_unique {as bs as' bs' : List Link} {l l' : Link}
    (h : as ++ l :: bs = as' ++ l' :: bs') (ha : ∀ k ∈ as, l.1.level ≤ k.1.level)
    (hb : ∀ k ∈ bs, l.1.level < k.1.level) (ha' : ∀ k ∈ as', l'.1.level ≤ k.1.level)
    (hb' : ∀ k ∈ bs', l'.1.level < k.1.level) : as = as' ∧ l = l' ∧ bs = bs' := by
  obtain ⟨cs, rfl, hcs⟩ | ⟨cs, rfl, hcs⟩ := List.append_eq_append_iff.1 h
  · cases cs with
    | nil =>
      obtain ⟨rfl, rfl⟩ := List.cons.inj hcs
      simp
    | cons k cs =>
      obtain ⟨rfl, rfl⟩ := List.cons.inj hcs
      have hle : l'.1.level ≤ l.1.level := ha' l (by simp)
      have hlt : l.1.level < l'.1.level := hb l' (by simp)
      omega
  · cases cs with
    | nil =>
      obtain ⟨rfl, rfl⟩ := List.cons.inj hcs
      simp
    | cons k cs =>
      obtain ⟨rfl, rfl⟩ := List.cons.inj hcs
      have hle : l.1.level ≤ l'.1.level := ha l' (by simp)
      have hlt : l'.1.level < l.1.level := hb' l (by simp)
      omega

/-- **Two ordered trees of one chain are equal.** -/
theorem eq_of_ordered {h : Group} (hg : g.Ordered) (hh : h.Ordered) (hfirst : g.first = h.first)
    (hlinks : g.links = h.links) : g = h := by
  induction g generalizing h with
  | operand x =>
    cases h with
    | operand y => exact congrArg operand hfirst
    | binary op l r => simp [links] at hlinks
  | binary op l r ihl ihr =>
    cases h with
    | operand y => simp [links] at hlinks
    | binary op' l' r' =>
      obtain ⟨hl, hr, hol, hor⟩ := hg
      obtain ⟨hl', hr', hol', hor'⟩ := hh
      obtain ⟨hls, hop, hrs⟩ := split_unique hlinks
        (fun k hk => hl.trans (hol.level_le k hk)) (fun k hk => hr.trans_le (hor.level_le k hk))
        (fun k hk => hl'.trans (hol'.level_le k hk)) (fun k hk => hr'.trans_le (hor'.level_le k hk))
      obtain ⟨rfl, hright⟩ := Prod.mk.inj hop
      rw [ihl hol hol' hfirst hls, ihr hor hor' hright hrs]

def add : Group → BinOp → Operand → Group
  | operand x, op, y => binary op (operand x) (operand y)
  | binary o l r, op, y =>
    if o.level < op.level then binary o l (r.add op y)
    else binary op (binary o l r) (operand y)

theorem first_add (g : Group) (op : BinOp) (y : Operand) : (g.add op y).first = g.first := by
  induction g with
  | operand x => rfl
  | binary o l r _ ihr => rw [add]; split <;> rfl

theorem links_add (g : Group) (op : BinOp) (y : Operand) :
    (g.add op y).links = g.links ++ [(op, y)] := by
  induction g with
  | operand x => rfl
  | binary o l r _ ihr =>
    rw [add]
    split
    · simp [links, ihr, first_add]
    · rfl

theorem level_add (g : Group) (op : BinOp) (y : Operand) :
    (g.add op y).level = min g.level op.level := by
  have hlt := op.level_lt
  cases g with
  | operand x => simp only [add, level]; omega
  | binary o l r =>
    rw [add]
    split <;> simp only [level] <;> omega

theorem Ordered.add (h : g.Ordered) (op : BinOp) (y : Operand) : (g.add op y).Ordered := by
  have hlt := op.level_lt
  induction g with
  | operand x => exact ⟨hlt.le, hlt, trivial, trivial⟩
  | binary o l r _ ihr =>
    rw [Group.add]
    split
    · next ho =>
      obtain ⟨hl, hr, hol, hor⟩ := h
      refine ⟨hl, ?_, hol, ihr hor⟩
      rw [level_add]
      exact lt_min hr ho
    · next ho => exact ⟨not_lt.1 ho, hlt, h, trivial⟩

/-- The tree of a chain. -/
def grouped (x : Operand) (links : List Link) : Group :=
  links.foldl (fun g l => g.add l.1 l.2) (operand x)

theorem foldl_add (links : List Link) (g : Group) (h : g.Ordered) :
    let t := links.foldl (fun g l => g.add l.1 l.2) g
    t.first = g.first ∧ t.links = g.links ++ links ∧ t.Ordered := by
  induction links generalizing g with
  | nil => simp [h]
  | cons l links ih =>
    obtain ⟨hfirst, hlinks, ho⟩ := ih (g.add l.1 l.2) (h.add l.1 l.2)
    refine ⟨hfirst.trans (first_add ..), ?_, ho⟩
    rw [List.foldl_cons, hlinks, links_add, List.append_assoc]
    rfl

theorem grouped_ordered (x : Operand) (links : List Link) :
    (grouped x links).first = x ∧ (grouped x links).links = links ∧ (grouped x links).Ordered :=
  foldl_add links (operand x) trivial

end Group

/-! ## Reading chains -/

namespace Grammar

variable {level g : Nat} {look : Look} {fs : List Frame} {rest : List Token}

def Tree.Reads (t : Tree) (e : Expr) : Prop :=
  t.symbol = .phrase .expression ∧ ∃ m, t.expr? = some m ∧ m.unplaced = e

def ruleOf : Atom → Rule
  | .number _ => .number
  | .name _ => .var
  | .bool b => .bool b
  | .string _ => .string
  | .char _ => .char

/-- What ends a chain that binds at the given level: the end of the text, or an operator that does
    not bind tighter. -/
def Ends (level : Nat) (look : Look) : Prop :=
  look = none ∨ ∃ op : BinOp, look = some (kindOf op) ∧ op.level ≤ level

theorem Ends.mono {level' : Nat} (h : Ends level look) (hl : level ≤ level') :
    Ends level' look := by
  obtain rfl | ⟨op, hop, hle⟩ := h
  · exact .inl rfl
  · exact .inr ⟨op, hop, hle.trans hl⟩

theorem Ends.seven (h : Ends level look) : Ends 7 look := by
  obtain rfl | ⟨op, hop, -⟩ := h
  · exact .inl rfl
  · exact .inr ⟨op, hop, Nat.le_of_lt_succ op.level_lt⟩

/-- An expression is expected in the state `p`, and operators above the level go on in the state
    `g` after it. -/
structure Place (p level g : Nat) : Prop where
  goto : transition p (.phrase .expression) = some g
  shift : ∀ op : BinOp, level < op.level →
    (row g).shift? (kindOf op) = some (Rule.binary op).lastState

theorem level_binary (op : BinOp) : (Rule.binary op).level = op.level := by
  cases op <;> rfl

theorem Place.start : Place 0 0 1 where
  goto := (TableFacts.whole tableFacts).1
  shift op _ := by cases op <;> decide +kernel

/-- Behind an operator an operand is expected, and after that the operator is applied unless a
    tighter one follows. -/
theorem place_of_trails {r : Rule} (h : r.trails = true) :
    ∃ g, Place r.lastState r.level g ∧
      ∀ look, Ends r.level look → (row g).reduce? look = some r := by
  obtain ⟨g, hg, hclose, hop, -⟩ := trailing_checked h
  refine ⟨g, ⟨hg, fun op hlt => ?_⟩, ?_⟩
  · have hshift := hop _ _ _ (mem_operators op)
    rwa [if_pos (by rw [level_binary]; exact hlt)] at hshift
  · rintro look (rfl | ⟨op, rfl, hle⟩)
    · exact hclose none (by decide)
    · have hreduce := hop _ _ _ (mem_operators op)
      rwa [if_neg (by rw [level_binary]; exact not_lt.2 hle)] at hreduce

theorem Ends.mem_follow (h : Ends level look) : look ∈ follow := by
  obtain rfl | ⟨op, rfl, -⟩ := h
  · exact mem_follow_of_closes (by decide)
  · exact (mem_follow_of_operators (mem_operators op)).1

theorem transition_of_reads {p : Nat} {x : Symbol} {states : List Nat}
    (h : reads p [x] = some states) : transition p x = some (topState states) := by
  rw [reads] at h
  split_ifs at h
  obtain ⟨q, hq, hstates⟩ := Option.bind_eq_some_iff.1 h
  cases hstates
  exact hq

theorem atom_checked (a : Atom) : ∃ q, transition 0 (.token a.piece.kind) = some q ∧
    ∀ look ∈ follow, (row q).reduce? look = some (ruleOf a) := by
  have hrhs : (ruleOf a).rhs = [.token a.piece.kind] := by
    cases a with
    | bool b => cases b <;> rfl
    | _ => rfl
  have hclosed : (ruleOf a).closed = true := by
    cases a with
    | bool b => cases b <;> decide
    | _ => exact of_decide_eq_true rfl
  obtain ⟨states, hreads, hreduce⟩ := of_completes (closed_checked hclosed)
  rw [hrhs] at hreads
  exact ⟨_, transition_of_reads hreads, fun look hlook => (hreduce look hlook).1⟩

theorem shift_sign (op : UnOp) :
    transition 0 (.token (unaryKindOf op)) = some (Rule.unary op).lastState := by
  have hrhs : (Rule.unary op).rhs.dropLast = [.token (unaryKindOf op)] := rfl
  obtain ⟨states, hreads, htop⟩ := enter_checked (r := .unary op) rfl rfl nofun
  rw [hrhs] at hreads
  rw [← htop]
  exact transition_of_reads hreads

theorem steps_shift {t : Token} {q : Nat}
    (h : transition (Machine.top fs) (.token t.kind) = some q) :
    Steps ⟨fs, t :: rest, none, 0⟩ ⟨⟨q, .leaf t⟩ :: fs, rest, none, 0⟩ :=
  Builds.leaf t fs rest q h trivial

theorem steps_atom {t : Token} {a : Atom} (ht : t.piece = a.piece)
    (hgoto : transition (Machine.top fs) (.phrase .expression) = some g)
    (hlook : lookOf rest ∈ follow) : ∃ u : Tree, u.Reads a.expr ∧
      Steps ⟨fs, t :: rest, none, 0⟩ ⟨⟨g, u⟩ :: fs, rest, none, 0⟩ := by
  obtain ⟨hkind, htext⟩ := Piece.mk.inj ht
  obtain ⟨q, hq, hreduce⟩ := atom_checked a
  have hlhs : (ruleOf a).lhs = .expression := by cases a <;> rfl
  have hlen : (ruleOf a).rhs.length = 1 := by cases a <;> rfl
  have hshift : transition (Machine.top fs) (.token t.kind) = some q := by
    rw [hkind]
    exact start_checked hgoto (by simp) hq
  have hreduced : Steps ⟨[⟨q, .leaf t⟩] ++ fs, rest, none, 0⟩
      ⟨⟨g, .apply (ruleOf a) [.leaf t]⟩ :: fs, rest, none, 0⟩ :=
    steps_reduce (by cases a <;> simp [ruleOf]) hlen.symm (hreduce _ hlook)
      (by cases a <;> rfl) (by rw [hlhs]; exact hgoto)
  refine ⟨.apply (ruleOf a) [.leaf t], ⟨congrArg Symbol.phrase hlhs, ?_⟩,
    (steps_shift hshift).trans hreduced⟩
  cases a <;> exact ⟨_, rfl, by simp [Expr.unplaced, Atom.expr, Piece.name, htext]⟩

theorem steps_operand {ts : List Token} {signs : List UnOp} {a : Atom}
    (hts : ts.map Token.piece = signs.map UnOp.piece ++ [a.piece])
    (hgoto : transition (Machine.top fs) (.phrase .expression) = some g)
    (hends : Ends 7 (lookOf rest)) : ∃ u : Tree, u.Reads (signs.foldr (.unary .unknown) a.expr) ∧
      Steps ⟨fs, ts ++ rest, none, 0⟩ ⟨⟨g, u⟩ :: fs, rest, none, 0⟩ := by
  induction signs generalizing fs ts g with
  | nil =>
    obtain ⟨t, rfl, ht⟩ := List.map_eq_singleton_iff.1 hts
    exact steps_atom ht hgoto hends.mem_follow
  | cons op signs ih =>
    obtain ⟨t, ts, rfl, ht, hts⟩ := List.map_eq_cons_iff.1 hts
    obtain ⟨hkind, -⟩ := Piece.mk.inj ht
    obtain ⟨q, hplace, hreduce⟩ := place_of_trails (r := .unary op) (by cases op <;> decide)
    have hshift : transition (Machine.top fs) (.token t.kind) =
        some (Rule.unary op).lastState := by
      rw [hkind]
      exact start_checked hgoto (by simp) (shift_sign op)
    have hnext : transition (Machine.top (⟨(Rule.unary op).lastState, .leaf t⟩ :: fs))
      (.phrase .expression) = some q := hplace.goto
    obtain ⟨u, ⟨-, m, hm, hread⟩, hsteps⟩ := ih hts hnext
    have hreduced : Steps ⟨[⟨q, u⟩, ⟨(Rule.unary op).lastState, .leaf t⟩] ++ fs, rest, none, 0⟩
        ⟨⟨g, .apply (.unary op) [.leaf t, u]⟩ :: fs, rest, none, 0⟩ :=
      steps_reduce (by simp) rfl (hreduce _ hends) rfl hgoto
    refine ⟨_, ⟨rfl, .unary (Tree.linesOf [.leaf t, u]).pos op m, ?_, ?_⟩,
      ((steps_shift hshift).trans hsteps).trans hreduced⟩
    · simp [Tree.apply, Tree.expr?, hm]
    · simp [Expr.unplaced, hread]

/-- **An ordered tree is read as it is**, where its operators bind tighter than what stands before
    and not looser than what follows. -/
theorem steps_group {ts : List Token} {x : Group} (hx : x.Ordered)
    (hts : ts.map Token.piece = chainPieces x.first x.links)
    (hplace : Place (Machine.top fs) level g) (hlevel : level < x.level)
    (hends : Ends x.level (lookOf rest)) : ∃ u : Tree, u.Reads x.expr ∧
      Steps ⟨fs, ts ++ rest, none, 0⟩ ⟨⟨g, u⟩ :: fs, rest, none, 0⟩ := by
  induction x generalizing fs ts rest level g with
  | operand y =>
    have hpieces : ts.map Token.piece = y.signs.map UnOp.piece ++ [y.atom.piece] := by
      simpa [chainPieces, Group.first, Group.links, Operand.pieces] using hts
    exact steps_operand hpieces hplace.goto hends.seven
  | binary op l r ihl ihr =>
    obtain ⟨hl, hr, hol, hor⟩ := hx
    -- the tokens of the left part, the operator, and the tokens of the right part
    rw [Group.links, Group.first, chainPieces_append] at hts
    obtain ⟨ts₁, ts₂, rfl, hleft, hts⟩ := List.map_eq_append_iff.1 hts
    obtain ⟨t, ts₂, rfl, ht, hright⟩ := List.map_eq_cons_iff.1 hts
    obtain ⟨hkind, -⟩ := Piece.mk.inj ht
    have hlook : lookOf ((t :: ts₂) ++ rest) = some (kindOf op) := congrArg some hkind
    obtain ⟨u, ⟨-, m, hm, hread⟩, hsteps⟩ := ihl hol hleft hplace (hlevel.trans_le hl)
      (.inr ⟨op, hlook, hl⟩)
    have hshift : transition g (.token t.kind) = some (Rule.binary op).lastState := by
      rw [hkind]
      exact hplace.shift op hlevel
    obtain ⟨q, hbehind, hreduce⟩ := place_of_trails (r := .binary op) (by cases op <;> decide)
    rw [level_binary] at hbehind hreduce
    have hnext : Place (Machine.top (⟨(Rule.binary op).lastState, .leaf t⟩ :: ⟨g, u⟩ :: fs))
      op.level q := hbehind
    obtain ⟨v, ⟨-, n, hn, hread'⟩, hsteps'⟩ := ihr hor hright hnext hr (hends.mono hr.le)
    have hreduced : Steps
        ⟨[⟨q, v⟩, ⟨(Rule.binary op).lastState, .leaf t⟩, ⟨g, u⟩] ++ fs, rest, none, 0⟩
        ⟨⟨g, .apply (.binary op) [u, .leaf t, v]⟩ :: fs, rest, none, 0⟩ :=
      steps_reduce (by simp) rfl (hreduce _ hends) rfl hplace.goto
    rw [List.append_assoc]
    refine ⟨_, ⟨rfl, .binary (Tree.linesOf [u, .leaf t, v]).pos op m n, ?_, ?_⟩,
      ((hsteps.trans (steps_shift hshift)).trans hsteps').trans hreduced⟩
    · simp [Tree.apply, Tree.expr?, hm, hn]
    · simp [Expr.unplaced, hread, hread', Group.expr]

theorem parse_group {text : String} {x : Group} (hx : x.Ordered)
    (hw : Written text (chainPieces x.first x.links)) :
    ∃ e, parse text = .ok (some e) ∧ e.unplaced = x.expr := by
  obtain ⟨hi, htokens⟩ := hw
  have hlevel : 0 < x.level := by
    cases x with
    | operand y => exact Nat.succ_pos 7
    | binary op l r => exact op.level_pos
  have hstack : Place (Machine.top []) 0 _ := Place.start
  have hends : Ends x.level (lookOf []) := .inl rfl
  obtain ⟨t, ⟨hsym, e, he, hread⟩, hsteps⟩ := steps_group hx htokens hstack hlevel hends
  have hstart : Machine.start (lex text) = ⟨[], (lex text).tokens ++ [], none, 0⟩ := by
    rw [Machine.start, hi, List.append_nil]
  refine ⟨e, ?_, hread⟩
  rw [parse, derive_of_steps hsym (hstart ▸ hsteps), ← he]
  rfl

/-- **Chains are read by the levels of their operators.**  Operators before an operand bind tighter
    than all operators between operands; these group by their levels, and to the left within one. -/
theorem parse_chain {text : String} {x : Operand} {links : List Link}
    (hw : Written text (chainPieces x links)) :
    ∃ g : Group, g.first = x ∧ g.links = links ∧ g.Ordered ∧
      (∀ h : Group, h.first = x → h.links = links → h.Ordered → h = g) ∧
      ∃ e, parse text = .ok (some e) ∧ e.unplaced = g.expr := by
  obtain ⟨hfirst, hlinks, ho⟩ := Group.grouped_ordered x links
  refine ⟨Group.grouped x links, hfirst, hlinks, ho, fun h hf hl hh => ?_, ?_⟩
  · exact Group.eq_of_ordered hh ho (hf.trans hfirst.symm) (hl.trans hlinks.symm)
  · exact parse_group ho (by rw [hfirst, hlinks]; exact hw)

/-- The tokens of `NOT a OR - 1 - 2 * b + 3 == c`. -/
theorem parse_chain_levels : ∃ e, parse "NOT a OR - 1 - 2 * b + 3 == c" = .ok (some e) ∧
    e.unplaced = .binary .unknown .or
      (.unary .unknown .not (.var .unknown "a"))
      (.binary .unknown .eqs
        (.binary .unknown .plus
          (.binary .unknown .minus
            (.unary .unknown .minus (.number .unknown "1"))
            (.binary .unknown .times (.number .unknown "2") (.var .unknown "b")))
          (.number .unknown "3"))
        (.var .unknown "c")) := by
  let links : List Link := [(.or, ⟨[.minus], .number "1"⟩), (.minus, ⟨[], .number "2"⟩),
    (.times, ⟨[], .name "b"⟩), (.plus, ⟨[], .number "3"⟩), (.eqs, ⟨[], .name "c"⟩)]
  have hspell : String.ofList (spell (chainPieces ⟨[.not], .name "a"⟩ links)) =
      "NOT a OR - 1 - 2 * b + 3 == c" := rfl
  have hw : Written "NOT a OR - 1 - 2 * b + 3 == c" (chainPieces ⟨[.not], .name "a"⟩ links) :=
    hspell ▸ lex_spell (by decide +kernel)
  obtain ⟨g, -, -, -, hunique, e, hparse, hread⟩ := parse_chain hw
  refine ⟨e, hparse, hread.trans ?_⟩
  rw [← hunique (Group.grouped ⟨[.not], .name "a"⟩ links) rfl rfl (Group.grouped_ordered _ _).2.2]
  rfl

end Grammar

end ExprLang
