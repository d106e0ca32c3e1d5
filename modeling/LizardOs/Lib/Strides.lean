import Mathlib.Data.List.Range
import Mathlib.Data.List.Nodup

/-!
# Cells at equal distances

The cells `start`, `start + stride`, `start + 2 * stride`, … carved out of a region.  With a stride of at least one
they are distinct and a stride apart.
-/

namespace LizardOs.Lib

/-- `n` cells from `start` on, `stride` apart. -/
def strides (start stride n : ℕ) : List ℕ := (List.range n).map fun i => start + i * stride

/-- Two ranges share no cell; an empty range shares none. -/
def RangesApart (a m b n : ℕ) : Prop := a + m ≤ b ∨ b + n ≤ a

theorem RangesApart.symm {a m b n : ℕ} (h : RangesApart a m b n) : RangesApart b n a m := Or.symm h

/-- Parts of ranges that are apart are apart. -/
theorem RangesApart.mono {a m b n a' m' b' n' : ℕ} (h : RangesApart a m b n) (ha : a ≤ a')
    (ham : a' + m' ≤ a + m) (hb : b ≤ b') (hbn : b' + n' ≤ b + n) : RangesApart a' m' b' n' := by
  rcases h with h | h
  · left
    omega
  · right
    omega

variable {start stride n o o' : ℕ}

theorem mem_strides : o ∈ strides start stride n ↔ ∃ i < n, o = start + i * stride := by
  rw [strides, List.mem_map]
  constructor
  · intro ⟨i, hi, ho⟩
    exact ⟨i, List.mem_range.mp hi, ho.symm⟩
  · intro ⟨i, hi, ho⟩
    exact ⟨i, List.mem_range.mpr hi, ho.symm⟩

/-- Each cell lies in the region that the cells were counted for. -/
theorem strides_inside {stop : ℕ} (h : o ∈ strides start stride ((stop - start) / stride)) :
    start ≤ o ∧ o + stride ≤ stop := by
  obtain ⟨i, hi, rfl⟩ := mem_strides.mp h
  have hle : (i + 1) * stride ≤ stop - start :=
    (Nat.mul_le_mul_right stride hi).trans (Nat.div_mul_le_self _ _)
  have hpos : 0 < stop - start := by
    by_contra hzero
    rw [Nat.eq_zero_of_not_pos hzero, Nat.zero_div] at hi
    exact absurd hi (Nat.not_lt_zero i)
  rw [Nat.succ_mul] at hle
  omega

theorem strides_apart (ho : o ∈ strides start stride n) (ho' : o' ∈ strides start stride n) (hne : o ≠ o') :
    RangesApart o stride o' stride := by
  obtain ⟨i, -, rfl⟩ := mem_strides.mp ho
  obtain ⟨j, -, rfl⟩ := mem_strides.mp ho'
  rcases Nat.lt_trichotomy i j with hij | hij | hij
  · have hle : (i + 1) * stride ≤ j * stride := Nat.mul_le_mul_right stride hij
    rw [Nat.succ_mul] at hle
    left
    omega
  · rw [hij] at hne
    exact absurd rfl hne
  · have hle : (j + 1) * stride ≤ i * stride := Nat.mul_le_mul_right stride hij
    rw [Nat.succ_mul] at hle
    right
    omega

theorem strides_nodup (hpos : 0 < stride) : (strides start stride n).Nodup := by
  rw [strides]
  refine List.nodup_range.map fun i j hij => ?_
  have hmul : i * stride = j * stride := Nat.add_left_cancel hij
  exact Nat.eq_of_mul_eq_mul_right hpos hmul

end LizardOs.Lib
