import LizardOs.Lib.Bytes
import LizardOs.Lib.ForLoop
import Mathlib.Logic.Function.Basic

/-!
# Copying bytes inside one memory

`memcpy` and `memmove` over anything whose bytes can be read and stored one by one.  A copy upwards reads what the bytes
were before it when the destination is in front of the source or behind its end; a copy downwards when it is not in front
of it.
-/

namespace LizardOs.Lib

/-- One byte more of a copy. -/
theorem splice_succ {buf src : Buf} {off n : ℕ} :
    Function.update (splice buf off src n) (off + n) (src n) = splice buf off src (n + 1) := by
  funext j
  by_cases hj : j = off + n
  · rw [hj, Function.update_self, splice_inside (Nat.lt_succ_self n)]
  · rw [Function.update_of_ne hj, splice, splice]
    have hsame : (off ≤ j ∧ j < off + n) ↔ off ≤ j ∧ j < off + (n + 1) := by omega
    rw [if_congr hsame rfl rfl]

/-- A state in which bytes are read and stored by their position. -/
structure ByteStore (σ : Type) where
  get : σ → ℕ → UInt8
  put : σ → ℕ → UInt8 → σ
  get_put : ∀ s k b, get (put s k b) = Function.update (get s) k b

namespace ByteStore

variable {σ : Type} (m : ByteStore σ)

/-- `for (i = 0; i < n; i++) dst[i] = src[i];` -/
def copyUp (dst src n : ℕ) (s : σ) : σ := forLoop n (fun i s => m.put s (dst + i) (m.get s (src + i))) s

/-- `for (i = n; i != 0; i--) dst[i - 1] = src[i - 1];` -/
def copyDown (dst src n : ℕ) (s : σ) : σ :=
  forLoop n (fun k s => m.put s (dst + (n - k - 1)) (m.get s (src + (n - k - 1)))) s

/-- `memmove`. -/
def memmove (dst src n : ℕ) (s : σ) : σ := if dst < src then m.copyUp dst src n s else m.copyDown dst src n s

variable {m} {s : σ} {dst src n : ℕ}

/-- The bytes after a copy upwards are those before it, with a copy of the source spliced in. -/
theorem get_copyUp (h : dst ≤ src ∨ src + n ≤ dst) :
    m.get (m.copyUp dst src n s) = splice (m.get s) dst (fun j => m.get s (src + j)) n := by
  refine forLoop_invariant (I := fun k s' => m.get s' = splice (m.get s) dst (fun j => m.get s (src + j)) k)
    (splice_nothing _ _ _).symm fun i s' hi hs' => ?_
  -- the byte that is read has not been written yet
  have hread : m.get s' (src + i) = m.get s (src + i) := by
    rw [hs', splice_outside (by omega)]
  rw [m.get_put, hread, hs']
  exact splice_succ

/-- The same for a copy downwards: the end of the piece is there first. -/
theorem get_copyDown (h : src ≤ dst) :
    m.get (m.copyDown dst src n s) = splice (m.get s) dst (fun j => m.get s (src + j)) n := by
  have hloop : m.get (m.copyDown dst src n s) =
      splice (m.get s) (dst + (n - n)) (fun j => m.get s (src + (n - n + j))) n := by
    refine forLoop_invariant
      (I := fun k s' => k ≤ n → m.get s' = splice (m.get s) (dst + (n - k)) (fun j => m.get s (src + (n - k + j))) k)
      (fun _ => (splice_nothing _ _ _).symm) (fun k s' hk hs' hkn => ?_) le_rfl
    have hs' := hs' (Nat.le_of_succ_le hkn)
    have hread : m.get s' (src + (n - k - 1)) = m.get s (src + (n - k - 1)) := by
      rw [hs', splice_outside (by omega)]
    rw [m.get_put, hread, hs']
    funext j
    by_cases hj : j = dst + (n - k - 1)
    · rw [hj, Function.update_self, splice, if_pos (by omega)]
      exact congrArg (m.get s) (by omega)
    · rw [Function.update_of_ne hj, splice, splice]
      by_cases hin : dst + (n - k) ≤ j ∧ j < dst + (n - k) + k
      · rw [if_pos hin, if_pos (by omega)]
        exact congrArg (m.get s) (by omega)
      · rw [if_neg hin, if_neg (by omega)]
  simpa only [Nat.sub_self, Nat.add_zero, Nat.zero_add] using hloop

/-- **`memmove`** copies what the source was, also when the two ranges overlap. -/
theorem get_memmove : m.get (m.memmove dst src n s) = splice (m.get s) dst (fun j => m.get s (src + j)) n := by
  rw [memmove]
  split
  · exact get_copyUp (.inl (by omega))
  · exact get_copyDown (by omega)

end ByteStore

end LizardOs.Lib
