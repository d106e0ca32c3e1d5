import LizardOs.Lib.Bytes
import LizardOs.Lib.InsertionSort

/-!
# Sorting

`qsort` of `userspace/lib/stdlib.c`: an insertion sort that moves elements as runs of bytes, with one of them in an array
of 256 bytes on the stack.  The array that is sorted lies in memory, so its positions do not wrap around.

Seen by elements, it is the insertion sort of `Lib.InsertionSort`; seen by bytes, it writes inside the array only
(`qsort_spec`).
-/

namespace LizardOs.User

open LizardOs.Lib

/-- `sizeof(tmp)`. -/
def SIZEOF_TMP : ℕ := 256

section

variable {size : ℕ}

/-- The bytes of an element. -/
abbrev Elem (size : ℕ) := Vector UInt8 size

/-- The element that a pointer leads to. -/
def elemAt (size : ℕ) (mem : Buf) (p : ℕ) : Elem size := Vector.ofFn fun k => mem (p + k)

/-- The comparator is called with two pointers, and reads an element at each. -/
abbrev Cmp (size : ℕ) := Elem size → Elem size → ℤ

variable (cmp : Cmp size) (base : ℕ)

/-- The inner loop of `qsort`, from `j` on: where it ends and the memory after it. -/
def qsortShift (tmp : Buf) : ℕ → Buf → ℕ × Buf
  | 0, mem => (0, mem)
  | j + 1, mem =>
      if 0 < cmp (elemAt size mem (base + j * size)) (elemAt size tmp 0) then
        qsortShift tmp j (splice mem (base + (j + 1) * size) (fun k => mem (base + j * size + k)) size)
      else (j + 1, mem)

/-- The body of the outer loop of `qsort`, over the memory and `tmp`. -/
def qsortInsert (i : ℕ) (s : Buf × Buf) : Buf × Buf :=
  let tmp := splice s.2 0 (fun k => s.1 (base + i * size + k)) size
  let r := qsortShift cmp base tmp i s.1
  (splice r.2 (base + r.1 * size) tmp size, tmp)

/-- `qsort`: the memory after it.  `tmp` is what is on the stack. -/
def qsort (n : ℕ) (mem tmp : Buf) : Buf :=
  if SIZEOF_TMP < size then mem else (forLoop (n - 1) (fun i => qsortInsert cmp base (i + 1)) (mem, tmp)).1

/-! ### Elements -/

/-- The elements of an array. -/
def slots (size base : ℕ) (mem : Buf) (i : ℕ) : Elem size := elemAt size mem (base + i * size)

/-- One element is behind another. -/
def behind (x y : Elem size) : Bool := decide (0 < cmp x y)

/-- The comparator is a total preorder on elements. -/
structure Preorders : Prop where
  total : ∀ x y, cmp x y ≤ 0 ∨ cmp y x ≤ 0
  trans : ∀ x y z, cmp x y ≤ 0 → cmp y z ≤ 0 → cmp x z ≤ 0

end

variable {size : ℕ} {cmp : Cmp size} {base n : ℕ} {mem tmp : Buf}

theorem behind_eq_false {x y : Elem size} : behind cmp x y = false ↔ cmp x y ≤ 0 := by
  rw [behind, decide_eq_false_iff_not, Int.not_lt]

theorem Preorders.totalPreorder (h : Preorders cmp) : TotalPreorder (behind cmp) where
  total x y := by
    rw [behind_eq_false, behind_eq_false]
    exact h.total x y
  trans x y z hxy hyz := behind_eq_false.mpr (h.trans x y z (behind_eq_false.mp hxy) (behind_eq_false.mp hyz))

theorem elemAt_congr {mem' : Buf} {p q : ℕ} (h : ∀ k < size, mem (p + k) = mem' (q + k)) :
    elemAt size mem p = elemAt size mem' q := by
  apply Vector.ext
  intro k hk
  rw [elemAt, elemAt, Vector.getElem_ofFn, Vector.getElem_ofFn]
  exact h k hk

/-- An element that is copied into a slot. -/
theorem slots_splice (mem src : Buf) (i : ℕ) :
    slots size base (splice mem (base + i * size) src size) =
      Function.update (slots size base mem) i (elemAt size src 0) := by
  funext s
  by_cases hs : s = i
  · rw [hs, Function.update_self]
    refine elemAt_congr fun k hk => ?_
    rw [splice_inside hk, Nat.zero_add]
  · rw [Function.update_of_ne hs]
    refine elemAt_congr fun k hk => splice_outside ?_
    rcases Nat.lt_or_gt_of_ne hs with hlt | hgt
    · have hmul : (s + 1) * size ≤ i * size := Nat.mul_le_mul_right size hlt
      rw [Nat.succ_mul] at hmul
      omega
    · have hmul : (i + 1) * size ≤ s * size := Nat.mul_le_mul_right size hgt
      rw [Nat.succ_mul] at hmul
      omega

/-- The inner loop, seen by elements. -/
theorem slots_qsortShift (cmp : Cmp size) (base : ℕ) (tmp : Buf) (j : ℕ) (mem : Buf) :
    ((qsortShift cmp base tmp j mem).1, slots size base (qsortShift cmp base tmp j mem).2) =
      shiftUp (behind cmp) (elemAt size tmp 0) j (slots size base mem) := by
  induction j generalizing mem with
  | zero => rfl
  | succ j ih =>
    rw [qsortShift, shiftUp]
    by_cases hgt : 0 < cmp (elemAt size mem (base + j * size)) (elemAt size tmp 0)
    · have hsrc : elemAt size (fun k => mem (base + j * size + k)) 0 = slots size base mem j :=
        elemAt_congr fun k _ => congrArg (fun i => mem (base + j * size + i)) (Nat.zero_add k)
      have hbehind : behind cmp (slots size base mem j) (elemAt size tmp 0) = true := decide_eq_true hgt
      rw [if_pos hgt, if_pos hbehind, ih, slots_splice, hsrc]
    · have hbehind : ¬behind cmp (slots size base mem j) (elemAt size tmp 0) = true := fun h => hgt (of_decide_eq_true h)
      rw [if_neg hgt, if_neg hbehind]

/-- The outer loop, seen by elements. -/
theorem slots_qsortInsert (cmp : Cmp size) (base i : ℕ) (s : Buf × Buf) :
    slots size base (qsortInsert cmp base i s).1 = insertStep (behind cmp) i (slots size base s.1) := by
  have htmp : elemAt size (splice s.2 0 (fun k => s.1 (base + i * size + k)) size) 0 = slots size base s.1 i :=
    elemAt_congr fun k hk => by
      rw [Nat.zero_add]
      exact splice_zero hk
  have hshift := slots_qsortShift cmp base (splice s.2 0 (fun k => s.1 (base + i * size + k)) size) i s.1
  rw [htmp] at hshift
  rw [insertStep, ← hshift, qsortInsert]
  simp only [slots_splice, htmp]

/-! ### Bytes outside -/

/-- The inner loop ends where it began or before, and writes up to the element it began at. -/
theorem qsortShift_outside (cmp : Cmp size) (base : ℕ) (tmp : Buf) (j : ℕ) (mem : Buf) :
    (qsortShift cmp base tmp j mem).1 ≤ j ∧
      ∀ p, p < base ∨ base + (j + 1) * size ≤ p → (qsortShift cmp base tmp j mem).2 p = mem p := by
  induction j generalizing mem with
  | zero => exact ⟨le_rfl, fun _ _ => rfl⟩
  | succ j ih =>
    rw [qsortShift]
    split
    · obtain ⟨hle, hout⟩ := ih (splice mem (base + (j + 1) * size) (fun k => mem (base + j * size + k)) size)
      refine ⟨by omega, fun p hp => ?_⟩
      have hmul : (j + 1 + 1) * size = (j + 1) * size + size := Nat.succ_mul _ _
      rw [hout p (by omega), splice_outside (by omega)]
    · exact ⟨le_rfl, fun _ _ => rfl⟩

theorem qsortInsert_outside (cmp : Cmp size) (base i : ℕ) (s : Buf × Buf) {p : ℕ}
    (hp : p < base ∨ base + (i + 1) * size ≤ p) : (qsortInsert cmp base i s).1 p = s.1 p := by
  obtain ⟨hle, hout⟩ := qsortShift_outside cmp base (splice s.2 0 (fun k => s.1 (base + i * size + k)) size) i s.1
  have hmul := Nat.mul_le_mul_right size (show _ + 1 ≤ i + 1 from Nat.succ_le_succ hle)
  rw [Nat.succ_mul] at hmul
  refine (splice_outside ?_).trans (hout p hp)
  omega

/-- **`qsort`** with a comparator that is a total preorder: the elements are permuted and in order, those that the
comparator takes for equal keep their order, and no byte outside the array changes. -/
theorem qsort_spec (hsize : size ≤ SIZEOF_TMP) (hcmp : Preorders cmp) (base n : ℕ) (mem tmp : Buf) :
    (items (slots size base (qsort cmp base n mem tmp)) n).Perm (items (slots size base mem) n) ∧
      (items (slots size base (qsort cmp base n mem tmp)) n).Pairwise (fun x y => cmp x y ≤ 0) ∧
      (∀ z, (items (slots size base (qsort cmp base n mem tmp)) n).filter
            (fun x => decide (cmp z x ≤ 0 ∧ cmp x z ≤ 0)) =
          (items (slots size base mem) n).filter fun x => decide (cmp z x ≤ 0 ∧ cmp x z ≤ 0)) ∧
      ∀ p, p < base ∨ base + n * size ≤ p → qsort cmp base n mem tmp p = mem p := by
  have hrun : qsort cmp base n mem tmp = (forLoop (n - 1) (fun i => qsortInsert cmp base (i + 1)) (mem, tmp)).1 :=
    if_neg (Nat.not_lt.mpr hsize)
  have hslots : slots size base (qsort cmp base n mem tmp) = insertionSort (behind cmp) n (slots size base mem) := by
    rw [hrun]
    exact forLoop_map (g := fun s : Buf × Buf => slots size base s.1)
      (fun i s => slots_qsortInsert cmp base (i + 1) s) (mem, tmp)
  obtain ⟨hperm, hsorted, hstable⟩ := insertionSort_spec hcmp.totalPreorder n (slots size base mem)
  have hequal : ∀ z : Elem size, equivalent (behind cmp) z = fun x => decide (cmp z x ≤ 0 ∧ cmp x z ≤ 0) := by
    intro z
    funext x
    rw [Bool.eq_iff_iff, equivalent_iff, behind_eq_false, behind_eq_false, decide_eq_true_iff]
  rw [hslots]
  refine ⟨hperm, hsorted.imp fun h => behind_eq_false.mp h, fun z => ?_, fun p hp => ?_⟩
  · rw [← hequal]
    exact hstable z
  · rw [hrun]
    refine forLoop_invariant (I := fun _ (s : Buf × Buf) => s.1 p = mem p) rfl fun i s hi hs => ?_
    have hmul : (i + 1 + 1) * size ≤ n * size := Nat.mul_le_mul_right size (by omega)
    rw [qsortInsert_outside cmp base (i + 1) s (by omega), hs]

/-- Compare by the first byte only. -/
def firstByteCmp : Cmp 2 := fun x y => (x[0].toNat : ℤ) - y[0].toNat

theorem qsort_spec_pairs :
    (items (slots 2 4 (qsort firstByteCmp 4 3 (fun i => UInt8.ofNat (200 - 7 * i)) fun _ => 0)) 3).Perm
        (items (slots 2 4 fun i => UInt8.ofNat (200 - 7 * i)) 3) ∧
      (items (slots 2 4 (qsort firstByteCmp 4 3 (fun i => UInt8.ofNat (200 - 7 * i)) fun _ => 0)) 3).Pairwise
        (fun x y => firstByteCmp x y ≤ 0) ∧
      (∀ z, (items (slots 2 4 (qsort firstByteCmp 4 3 (fun i => UInt8.ofNat (200 - 7 * i)) fun _ => 0)) 3).filter
            (fun x => decide (firstByteCmp z x ≤ 0 ∧ firstByteCmp x z ≤ 0)) =
          (items (slots 2 4 fun i => UInt8.ofNat (200 - 7 * i)) 3).filter
            fun x => decide (firstByteCmp z x ≤ 0 ∧ firstByteCmp x z ≤ 0)) ∧
      ∀ p, p < 4 ∨ 4 + 3 * 2 ≤ p →
        qsort firstByteCmp 4 3 (fun i => UInt8.ofNat (200 - 7 * i)) (fun _ => 0) p = UInt8.ofNat (200 - 7 * p) :=
  qsort_spec (by decide)
    ⟨fun x y => by rw [firstByteCmp, firstByteCmp]; omega, fun x y z => by
      rw [firstByteCmp, firstByteCmp, firstByteCmp]; omega⟩ 4 3 (fun i => UInt8.ofNat (200 - 7 * i)) fun _ => 0

end LizardOs.User
