import Mathlib.Data.List.Basic
import Mathlib.Data.Nat.ModEq
import Mathlib.Logic.Function.Basic

/-!
# Rings with free-running counters

A ring buffer with two 32-bit counters that run freely: one of the elements put in, one of those taken out.  A counter
is reduced modulo the capacity only where a cell is read or written, and the difference of the two, modulo `2^32`, is
the number of elements.  A push to a full ring drops the oldest element.

When the capacity divides `2^32` the ring is a queue, however often the counters wrap around.
-/

namespace LizardOs.Lib

variable {α : Type}

/-- The queue: a push that finds `cap` elements discards the oldest one. -/
def pushDropping (cap : ℕ) (q : List α) (x : α) : List α := if q.length < cap then q ++ [x] else q.tail ++ [x]

theorem pushDropping_length {cap : ℕ} {q : List α} (hpos : 0 < cap) (hq : q.length ≤ cap) (x : α) :
    (pushDropping cap q x).length ≤ cap := by
  rw [pushDropping]
  split
  · rw [List.length_append, List.length_singleton]
    omega
  · rw [List.length_append, List.length_tail, List.length_singleton]
    omega

/-- The cells and the counters. -/
structure RingBuffer (α : Type) where
  cell : ℕ → α
  head : UInt32
  tail : UInt32

namespace RingBuffer

variable {cap : ℕ} {r : RingBuffer α}

/-- How many elements are in the ring. -/
def count (r : RingBuffer α) : ℕ := (r.head - r.tail).toNat

/-- The elements, oldest first. -/
def contents (cap : ℕ) (r : RingBuffer α) : List α :=
  (List.range r.count).map fun i => r.cell ((r.tail.toNat + i) % cap)

/-- Put an element behind the others. -/
def put (cap : ℕ) (r : RingBuffer α) (x : α) : RingBuffer α :=
  { r with cell := Function.update r.cell (r.head.toNat % cap) x, head := r.head + 1 }

/-- Take the oldest element out. -/
def drop (r : RingBuffer α) : RingBuffer α := { r with tail := r.tail + 1 }

/-- Drop the oldest element of a full ring, and put one in. -/
def push (cap : ℕ) (r : RingBuffer α) (x : α) : RingBuffer α := if r.count < cap then r.put cap x else r.drop.put cap x

/-- Take all elements out. -/
def clear (r : RingBuffer α) : RingBuffer α := { r with tail := r.head }

theorem length_contents (cap : ℕ) (r : RingBuffer α) : (r.contents cap).length = r.count := by
  rw [contents, List.length_map, List.length_range]

theorem count_eq_zero_iff : r.count = 0 ↔ r.head = r.tail := by
  rw [count]
  constructor
  · intro hzero
    have hsub : r.head - r.tail = 0 := UInt32.toNat_inj.mp hzero
    grind
  · intro heq
    rw [heq, UInt32.sub_self]
    rfl

theorem contents_eq_nil_iff : r.contents cap = [] ↔ r.head = r.tail := by
  rw [← List.length_eq_zero_iff, length_contents, count_eq_zero_iff]

theorem contents_clear (cap : ℕ) (r : RingBuffer α) : r.clear.contents cap = [] := contents_eq_nil_iff.mpr rfl

/-- The counters modulo the capacity differ by the number of elements. -/
theorem head_mod (hdvd : cap ∣ 2 ^ 32) (r : RingBuffer α) : r.head.toNat % cap = (r.tail.toNat + r.count) % cap := by
  have hsum : r.tail + (r.head - r.tail) = r.head := by grind
  have hnat : (r.tail + (r.head - r.tail)).toNat = (r.tail.toNat + r.count) % 2 ^ 32 := UInt32.toNat_add ..
  rw [hsum] at hnat
  rw [hnat, Nat.mod_mod_of_dvd _ hdvd]

theorem tail_succ_mod (hdvd : cap ∣ 2 ^ 32) (r : RingBuffer α) (i : ℕ) :
    ((r.tail + 1).toNat + i) % cap = (r.tail.toNat + (i + 1)) % cap := by
  have hnat : (r.tail + 1).toNat = (r.tail.toNat + 1) % 2 ^ 32 := UInt32.toNat_add ..
  rw [hnat, Nat.add_mod, Nat.mod_mod_of_dvd _ hdvd, ← Nat.add_mod, Nat.add_assoc, Nat.add_comm 1 i]

/-- Two places less than a turn apart are different cells. -/
theorem cell_ne {t i j : ℕ} (hij : i < j) (hj : j < i + cap) : (t + i) % cap ≠ (t + j) % cap := by
  intro heq
  have hmod : i ≡ j [MOD cap] := Nat.ModEq.add_left_cancel' t heq
  have hdvd : cap ∣ j - i := (Nat.modEq_iff_dvd' hij.le).mp hmod
  exact absurd (Nat.le_of_dvd (by omega) hdvd) (by omega)

theorem count_put (hroom : r.count + 1 < 2 ^ 32) (x : α) : (r.put cap x).count = r.count + 1 := by
  have hsub : r.head + 1 - r.tail = (r.head - r.tail) + 1 := by grind
  have hadd : ((r.head - r.tail) + 1).toNat = (r.count + 1) % 2 ^ 32 := UInt32.toNat_add ..
  show (r.head + 1 - r.tail).toNat = _
  rw [hsub, hadd, Nat.mod_eq_of_lt hroom]

theorem contents_put (hdvd : cap ∣ 2 ^ 32) (hlt : cap < 2 ^ 32) (hroom : r.count < cap) (x : α) :
    (r.put cap x).contents cap = r.contents cap ++ [x] := by
  rw [contents, count_put (by omega), List.range_succ, List.map_append, List.map_singleton, contents]
  congr 1
  · apply List.map_congr_left
    intro i hi
    have hin : i < r.count := List.mem_range.mp hi
    show Function.update r.cell (r.head.toNat % cap) x ((r.tail.toNat + i) % cap) = _
    rw [head_mod hdvd, Function.update_of_ne (cell_ne hin (by omega))]
  · show [Function.update r.cell (r.head.toNat % cap) x ((r.tail.toNat + r.count) % cap)] = [x]
    rw [head_mod hdvd, Function.update_self]

theorem count_drop (hne : r.head ≠ r.tail) : r.drop.count + 1 = r.count := by
  have hpos : r.count ≠ 0 := fun hzero => hne (count_eq_zero_iff.mp hzero)
  have hle : (1 : UInt32) ≤ r.head - r.tail := UInt32.le_iff_toNat_le.mpr (Nat.pos_of_ne_zero hpos)
  have hsub : r.head - (r.tail + 1) = (r.head - r.tail) - 1 := by grind
  have hnat : ((r.head - r.tail) - 1).toNat = r.count - 1 := UInt32.toNat_sub_of_le _ _ hle
  show (r.head - (r.tail + 1)).toNat + 1 = _
  rw [hsub, hnat]
  omega

/-- The oldest element is at the tail. -/
theorem contents_drop (hdvd : cap ∣ 2 ^ 32) (hne : r.head ≠ r.tail) :
    r.contents cap = r.cell (r.tail.toNat % cap) :: r.drop.contents cap := by
  rw [contents, ← count_drop hne, List.range_succ_eq_map, List.map_cons, List.map_map, contents]
  congr 1
  apply List.map_congr_left
  intro i _
  show r.cell ((r.tail.toNat + (i + 1)) % cap) = r.cell (((r.tail + 1).toNat + i) % cap)
  rw [tail_succ_mod hdvd]

/-- **A push** is the push of the queue. -/
theorem contents_push (hdvd : cap ∣ 2 ^ 32) (hlt : cap < 2 ^ 32) (hpos : 0 < cap) (hcount : r.count ≤ cap) (x : α) :
    (r.push cap x).contents cap = pushDropping cap (r.contents cap) x := by
  rw [push, pushDropping, length_contents]
  split
  · rename_i hroom
    exact contents_put hdvd hlt hroom x
  · rename_i hfull
    have hne : r.head ≠ r.tail := by
      intro heq
      have hzero := count_eq_zero_iff.mpr heq
      omega
    have hdrop := count_drop hne
    rw [contents_put hdvd hlt (by omega) x, contents_drop hdvd hne, List.tail_cons]

end RingBuffer

end LizardOs.Lib
