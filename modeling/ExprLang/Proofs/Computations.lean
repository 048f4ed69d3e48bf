/-
  Computations that change a state and may fail.

  `exec` gives the result of a computation and the state that it leaves, which a failure does not
  take back.  The equations hold for every kind of fault and of state, so they serve the evaluator
  and the build driver alike.
-/
import Mathlib.Logic.Basic

namespace ExceptT

variable {ε σ α β : Type}

/-- The result of a computation, and the state after it. -/
def exec (m : ExceptT ε (StateM σ) α) (s : σ) : Except ε α × σ := m.run.run s

@[simp] theorem exec_pure (a : α) (s : σ) :
    exec (pure a : ExceptT ε (StateM σ) α) s = (.ok a, s) := rfl

@[simp] theorem exec_throw (f : ε) (s : σ) :
    exec (throw f : ExceptT ε (StateM σ) α) s = (.error f, s) := rfl

theorem exec_bind (m : ExceptT ε (StateM σ) α) (k : α → ExceptT ε (StateM σ) β) (s : σ) :
    exec (m >>= k) s = match exec m s with
      | (.ok a, t) => exec (k a) t
      | (.error f, t) => (.error f, t) := by
  show (ExceptT.bindCont k <$> m.run >>= id).run s = _
  unfold exec
  rcases hm : m.run.run s with ⟨_ | a, t⟩ <;> simp [StateT.run_bind, hm] <;> rfl

@[simp] theorem exec_get_bind (k : σ → ExceptT ε (StateM σ) α) (s : σ) :
    exec (get >>= k) s = exec (k s) s := rfl

@[simp] theorem exec_modify (f : σ → σ) (s : σ) :
    exec (modify f : ExceptT ε (StateM σ) Unit) s = (.ok (), f s) := rfl

@[simp] theorem exec_modify_bind (f : σ → σ) (k : Unit → ExceptT ε (StateM σ) α) (s : σ) :
    exec (modify f >>= k) s = exec (k ()) (f s) := rfl

/-- Two computations one after the other: the first fails, or the second one has the result. -/
theorem exec_bind_cases {m : ExceptT ε (StateM σ) α} {k : α → ExceptT ε (StateM σ) β} {s s' : σ}
    {result : Except ε β} (h : exec (m >>= k) s = (result, s')) :
    (∃ f, exec m s = (.error f, s') ∧ result = .error f) ∨
      ∃ a t, exec m s = (.ok a, t) ∧ exec (k a) t = (result, s') := by
  rw [exec_bind] at h
  rcases hm : exec m s with ⟨f | a, t⟩
  · rw [hm] at h
    cases h
    exact .inl ⟨f, rfl, rfl⟩
  · rw [hm] at h
    exact .inr ⟨a, t, rfl, h⟩

end ExceptT
