/-
  Fresh labels.

  A label is a name followed by the number of labels made from that name before.
-/

namespace ExprLang

/-- How many labels were made from each name. -/
structure Labels where
  counts : List (String × Nat)
deriving Repr, Inhabited

namespace Labels

def empty : Labels := ⟨[]⟩

def count (ls : Labels) (name : String) : Nat := (ls.counts.lookup name).getD 0

def bump (ls : Labels) (name : String) : Labels :=
  ⟨(name, ls.count name + 1) :: ls.counts.filter (·.1 ≠ name)⟩

def fresh (ls : Labels) (name : String) : String × Labels :=
  (name ++ toString (ls.count name), ls.bump name)

/-- The next label from each of `names`, in order. -/
def freshAll (ls : Labels) : List String → List String × Labels
  | [] => ([], ls)
  | name :: names =>
    let (label, ls) := ls.fresh name
    let (labels, ls) := ls.freshAll names
    (label :: labels, ls)

end Labels

end ExprLang
