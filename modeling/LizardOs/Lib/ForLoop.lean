import Mathlib.Data.Nat.Basic

/-!
# Counting loops

`for (i = 0; i < n; i++)` over a state, and the rule that carries an invariant through it.
-/

namespace LizardOs.Lib

variable {σ : Type}

/-- `for (i = 0; i < n; i++) body(i)`. -/
def forLoop : ℕ → (ℕ → σ → σ) → σ → σ
  | 0, _, s => s
  | n + 1, body, s => body n (forLoop n body s)

/-- What holds at the start of a loop and survives each pass holds at its end. -/
theorem forLoop_invariant {I : ℕ → σ → Prop} {n : ℕ} {body : ℕ → σ → σ} {s : σ} (hstart : I 0 s)
    (hstep : ∀ i s, i < n → I i s → I (i + 1) (body i s)) : I n (forLoop n body s) := by
  induction n with
  | zero => exact hstart
  | succ n ih =>
    have hprev := ih fun i s hi hs => hstep i s (Nat.lt_succ_of_lt hi) hs
    exact hstep n _ (Nat.lt_succ_self n) hprev

/-- A loop seen through a map that each pass respects. -/
theorem forLoop_map {τ : Type} {g : σ → τ} {n : ℕ} {body : ℕ → σ → σ} {body' : ℕ → τ → τ}
    (hstep : ∀ i s, g (body i s) = body' i (g s)) (s : σ) : g (forLoop n body s) = forLoop n body' (g s) := by
  induction n with
  | zero => rfl
  | succ n ih => rw [forLoop, hstep, ih, forLoop]

end LizardOs.Lib
