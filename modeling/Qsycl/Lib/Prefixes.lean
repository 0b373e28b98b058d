/-
# Runs that see a part of their input

A run on one input that returns is also a run on another input, as long as the
two agree on what was read until then (`Reproduced`). Agreement at the end of a
run implies agreement at each point before, so this composes along the code.
-/
import Qsycl.Lib.Runs

namespace Runs

variable {ε σ α β : Type} {A : σ → Prop}

/-- A run of `x` that ends where `A` holds is one of `y`, and `A` holds at its start. -/
def Reproduced (A : σ → Prop) (x y : Run ε σ α) : Prop :=
  ∀ s a s', exec x s = (.ok a, s') → A s' → A s ∧ exec y s = (.ok a, s')

namespace Reproduced

variable {x y : Run ε σ α} {f g : α → Run ε σ β}

theorem pure (a : α) : Reproduced A (Pure.pure a : Run ε σ α) (Pure.pure a) := by
  intro s a' s' h hA
  cases h
  exact ⟨hA, rfl⟩

theorem throw (e : ε) (y : Run ε σ α) : Reproduced A (MonadExcept.throw e : Run ε σ α) y :=
  fun _ _ _ h => nomatch h

theorem lift (x : Except ε α) : Reproduced A (liftM x : Run ε σ α) (liftM x) := by
  intro s a s' h hA
  rw [exec_lift, Prod.mk.injEq] at h
  obtain ⟨rfl, rfl⟩ := h
  exact ⟨hA, rfl⟩

theorem bind (hx : Reproduced A x y) (hf : ∀ a, Reproduced A (f a) (g a)) :
    Reproduced A (x >>= f) (y >>= g) := by
  intro s b s' h hA
  obtain ⟨a, s₁, hx', hf'⟩ := exec_bind_eq_ok.mp h
  obtain ⟨hA₁, hg⟩ := hf a s₁ b s' hf' hA
  obtain ⟨hA₀, hy⟩ := hx s a s₁ hx' hA₁
  exact ⟨hA₀, exec_bind_eq_ok.mpr ⟨a, s₁, hy, hg⟩⟩

theorem map (hx : Reproduced A x y) (g : α → β) : Reproduced A (g <$> x) (g <$> y) := by
  rw [map_eq_pure_bind, map_eq_pure_bind]
  exact hx.bind fun a => pure (g a)

/-- What does not read the input. -/
theorem of_back (h : ∀ s, A (exec x s).2 → A s) : Reproduced A x x := by
  intro s a s' hx hA
  refine ⟨h s ?_, hx⟩
  rwa [hx]

/-- What follows a look at the state may depend on it. -/
theorem get_bind {f g : σ → Run ε σ α}
    (h : ∀ s a s', exec (f s) s = (.ok a, s') → A s' → A s ∧ exec (g s) s = (.ok a, s')) :
    Reproduced A (MonadState.get >>= f) (MonadState.get >>= g) := by
  intro s a s' hx hA
  rw [exec_get_bind] at hx
  rw [exec_get_bind]
  exact h s a s' hx hA

end Reproduced

end Runs
