import Mathlib.Data.List.Basic
import Mathlib.Data.Nat.Basic
import Mathlib.Tactic.Ring

/-!
# Byte buffers and little-endian fields

A buffer is a function from byte positions to bytes; a routine that owns a buffer of `n` bytes reads and
writes positions below `n` only.  `splice` is `memcpy` into the middle of a buffer, and `le16`/`le32` read
the little-endian integers that `putLe16`/`putLe32` lay down.
-/

namespace LizardOs.Lib

/-- A byte buffer, indexed from zero. -/
abbrev Buf := ℕ → UInt8

/-- `memcpy(buf + off, src, n)`. -/
def splice (buf : Buf) (off : ℕ) (src : Buf) (n : ℕ) : Buf :=
  fun j => if off ≤ j ∧ j < off + n then src (j - off) else buf j

/-- The little-endian 16-bit integer at position `i`. -/
def le16 (b : Buf) (i : ℕ) : UInt16 := UInt16.ofNat ((b i).toNat + 256 * (b (i + 1)).toNat)

/-- The little-endian 32-bit integer at position `i`. -/
def le32 (b : Buf) (i : ℕ) : UInt32 :=
  UInt32.ofNat ((b i).toNat + 256 * (b (i + 1)).toNat + 65536 * (b (i + 2)).toNat
    + 16777216 * (b (i + 3)).toNat)

/-- Byte `k` of the little-endian layout of a number. -/
def leByte (v k : ℕ) : UInt8 := UInt8.ofNat (v / 256 ^ k % 256)

/-- A 64-bit pattern as a signed number. -/
def asI64 (n : ℕ) : ℤ :=
  if n % 2 ^ 64 < 2 ^ 63 then (n % 2 ^ 64 : ℕ) else (n % 2 ^ 64 : ℕ) - 2 ^ 64

theorem asI64_of_lt {n : ℕ} (h : n < 2 ^ 63) : asI64 n = n := by
  unfold asI64
  rw [Nat.mod_eq_of_lt (by omega), if_pos h]

theorem asI64_of_ge {n : ℕ} (h : 2 ^ 63 ≤ n) (h' : n < 2 ^ 64) : asI64 n = n - 2 ^ 64 := by
  unfold asI64
  rw [Nat.mod_eq_of_lt h', if_neg (by omega)]

theorem splice_inside {buf src : Buf} {off n j : ℕ} (h : j < n) :
    splice buf off src n (off + j) = src j := by
  have h' : off ≤ off + j ∧ off + j < off + n := by omega
  simp [splice, h']

theorem splice_zero {buf src : Buf} {n j : ℕ} (h : j < n) : splice buf 0 src n j = src j := by
  simp [splice, h]

theorem splice_outside {buf src : Buf} {off n j : ℕ} (h : j < off ∨ off + n ≤ j) :
    splice buf off src n j = buf j := by
  have h' : ¬(off ≤ j ∧ j < off + n) := by omega
  simp only [splice, h', if_false]

@[simp] theorem splice_nothing (buf src : Buf) (off : ℕ) : splice buf off src 0 = buf := by
  funext j
  exact splice_outside (by omega)

/-- A copy depends on the bytes it copies only. -/
theorem splice_congr {buf src src' : Buf} {off n : ℕ} (h : ∀ j < n, src j = src' j) :
    splice buf off src n = splice buf off src' n := by
  funext j
  unfold splice
  split
  · exact h _ (by omega)
  · rfl

/-- Two copies one behind the other are one. -/
theorem splice_append (buf src : Buf) (off m n : ℕ) :
    splice (splice buf off src m) (off + m) (fun j => src (m + j)) n = splice buf off src (m + n) := by
  funext j
  by_cases h1 : off ≤ j ∧ j < off + m
  · obtain ⟨k, rfl⟩ : ∃ k, j = off + k := ⟨j - off, by omega⟩
    rw [splice_outside (by omega), splice_inside (by omega), splice_inside (by omega)]
  · by_cases h2 : off + m ≤ j ∧ j < off + m + n
    · obtain ⟨k, rfl⟩ : ∃ k, j = off + m + k := ⟨j - off - m, by omega⟩
      rw [splice_inside (by omega), Nat.add_assoc off m k, splice_inside (by omega)]
    · rw [splice_outside (by omega), splice_outside (by omega), splice_outside (by omega)]

/-- A copy seen from position `d` on. -/
theorem splice_shift (buf src : Buf) (d off n j : ℕ) :
    splice buf (d + off) src n (d + j) = splice (fun i => buf (d + i)) off src n j := by
  by_cases h : off ≤ j ∧ j < off + n
  · obtain ⟨k, rfl⟩ : ∃ k, j = off + k := ⟨j - off, by omega⟩
    rw [← Nat.add_assoc, splice_inside (by omega), splice_inside (by omega)]
  · rw [splice_outside (by omega), splice_outside (by omega)]

@[simp] theorem leByte_toNat (v k : ℕ) : (leByte v k).toNat = v / 256 ^ k % 256 := by
  simp [leByte]

theorem le16_toNat (b : Buf) (i : ℕ) :
    (le16 b i).toNat = (b i).toNat + 256 * (b (i + 1)).toNat := by
  have h0 := (b i).toNat_lt
  have h1 := (b (i + 1)).toNat_lt
  simp only [le16, UInt16.toNat_ofNat']
  omega

theorem le32_toNat (b : Buf) (i : ℕ) :
    (le32 b i).toNat = (b i).toNat + 256 * (b (i + 1)).toNat + 65536 * (b (i + 2)).toNat
      + 16777216 * (b (i + 3)).toNat := by
  have h0 := (b i).toNat_lt
  have h1 := (b (i + 1)).toNat_lt
  have h2 := (b (i + 2)).toNat_lt
  have h3 := (b (i + 3)).toNat_lt
  simp only [le32, UInt32.toNat_ofNat']
  omega

/-- A 16-bit field laid down byte by byte reads back. -/
theorem le16_of_bytes {b : Buf} {i v : ℕ} (hv : v < 65536) (h0 : b i = leByte v 0)
    (h1 : b (i + 1) = leByte v 1) : (le16 b i).toNat = v := by
  rw [le16_toNat, h0, h1, leByte_toNat, leByte_toNat]
  omega

/-- A 32-bit field laid down byte by byte reads back. -/
theorem le32_of_bytes {b : Buf} {i v : ℕ} (hv : v < 4294967296) (h0 : b i = leByte v 0)
    (h1 : b (i + 1) = leByte v 1) (h2 : b (i + 2) = leByte v 2) (h3 : b (i + 3) = leByte v 3) :
    (le32 b i).toNat = v := by
  rw [le32_toNat, h0, h1, h2, h3, leByte_toNat, leByte_toNat, leByte_toNat, leByte_toNat]
  omega

/-- Reading a field depends on its own bytes only. -/
theorem le16_congr {b b' : Buf} {i i' : ℕ} (h0 : b i = b' i') (h1 : b (i + 1) = b' (i' + 1)) :
    le16 b i = le16 b' i' := by
  simp only [le16, h0, h1]

/-! ### Fields of any width -/

/-- The little-endian number of `w` bytes at position `i`. -/
def loadLe (b : Buf) (i : ℕ) : ℕ → ℕ
  | 0 => 0
  | w + 1 => loadLe b i w + 256 ^ w * (b (i + w)).toNat

/-- The low `w` bytes of a number at position `i`. -/
def storeLe (b : Buf) (i w v : ℕ) : Buf := splice b i (leByte v) w

theorem loadLe_lt (b : Buf) (i w : ℕ) : loadLe b i w < 256 ^ w := by
  induction w with
  | zero => exact Nat.one_pos
  | succ w ih =>
    have hbyte := (b (i + w)).toNat_lt
    have hmul : 256 ^ w * (b (i + w)).toNat ≤ 256 ^ w * 255 := Nat.mul_le_mul_left _ (by omega)
    rw [loadLe, pow_succ]
    omega

theorem loadLe_congr {b b' : Buf} {i w : ℕ} (h : ∀ k < w, b' (i + k) = b (i + k)) : loadLe b' i w = loadLe b i w := by
  induction w with
  | zero => rfl
  | succ w ih => rw [loadLe, loadLe, ih fun k hk => h k (Nat.lt_succ_of_lt hk), h w (Nat.lt_succ_self w)]

/-- A field that is stored reads back. -/
theorem loadLe_storeLe {b : Buf} {i w v : ℕ} (hv : v < 256 ^ w) : loadLe (storeLe b i w v) i w = v := by
  have hload : ∀ k ≤ w, loadLe (storeLe b i w v) i k = v % 256 ^ k := by
    intro k hk
    induction k with
    | zero => rw [loadLe, pow_zero, Nat.mod_one]
    | succ k ih =>
      rw [loadLe, ih (by omega), storeLe, splice_inside (by omega), leByte_toNat, pow_succ, Nat.mod_mul]
  rw [hload w le_rfl, Nat.mod_eq_of_lt hv]

/-- A field apart from the one that is stored. -/
theorem loadLe_storeLe_apart {b : Buf} {i w j n : ℕ} (v : ℕ) (h : j + n ≤ i ∨ i + w ≤ j) :
    loadLe (storeLe b i w v) j n = loadLe b j n :=
  loadLe_congr fun k hk => splice_outside (by omega)

/-! ### The bytes of a buffer as a list -/

/-- The first `n` bytes of a buffer. -/
def firstBytes (b : Buf) (n : ℕ) : List UInt8 := (List.range n).map b

@[simp] theorem firstBytes_length (b : Buf) (n : ℕ) : (firstBytes b n).length = n := by
  rw [firstBytes, List.length_map, List.length_range]

theorem firstBytes_get? {b : Buf} {n j : ℕ} (h : j < n) : (firstBytes b n)[j]? = some (b j) := by
  rw [firstBytes, List.getElem?_map, List.getElem?_range h]
  rfl

theorem firstBytes_congr {b b' : Buf} {n : ℕ} (h : ∀ j < n, b j = b' j) : firstBytes b n = firstBytes b' n := by
  rw [firstBytes, firstBytes, List.map_inj_left]
  exact fun j hj => h j (List.mem_range.mp hj)

/-- A piece of the bytes. -/
theorem firstBytes_drop_take (b : Buf) (n off k : ℕ) :
    ((firstBytes b n).drop off).take k = firstBytes (fun j => b (off + j)) (min k (n - off)) := by
  apply List.ext_getElem?
  intro j
  by_cases hj : j < min k (n - off)
  · rw [firstBytes_get? hj, List.getElem?_take_of_lt (by omega), List.getElem?_drop, firstBytes_get? (by omega)]
  · rw [List.getElem?_eq_none (by rw [List.length_take, List.length_drop, firstBytes_length]; omega),
      List.getElem?_eq_none (by rw [firstBytes_length]; omega)]

/-- Bytes copied into a buffer at most behind its end. -/
theorem firstBytes_splice (b src : Buf) {n off : ℕ} (k : ℕ) (hoff : off ≤ n) :
    firstBytes (splice b off src k) (max n (off + k)) =
      (firstBytes b n).take off ++ firstBytes src k ++ (firstBytes b n).drop (off + k) := by
  have htake : ((firstBytes b n).take off).length = off := by
    rw [List.length_take, firstBytes_length, Nat.min_eq_left hoff]
  have hboth : ((firstBytes b n).take off ++ firstBytes src k).length = off + k := by
    rw [List.length_append, htake, firstBytes_length]
  apply List.ext_getElem?
  intro j
  by_cases hj : j < max n (off + k)
  · rw [firstBytes_get? hj]
    by_cases hlow : j < off
    · rw [List.getElem?_append_left (by omega), List.getElem?_append_left (by omega),
        List.getElem?_take_of_lt hlow, firstBytes_get? (by omega), splice_outside (.inl hlow)]
    · by_cases hmid : j < off + k
      · obtain ⟨i, rfl⟩ : ∃ i, j = off + i := ⟨j - off, by omega⟩
        rw [List.getElem?_append_left (by omega), List.getElem?_append_right (by omega), htake, Nat.add_sub_cancel_left,
          firstBytes_get? (by omega), splice_inside (by omega)]
      · rw [List.getElem?_append_right (by omega), hboth, List.getElem?_drop, splice_outside (.inr (by omega)),
          show off + k + (j - (off + k)) = j by omega, firstBytes_get? (by omega)]
  · rw [List.getElem?_eq_none (by rw [firstBytes_length]; omega), List.getElem?_eq_none]
    rw [List.length_append, hboth, List.length_drop, firstBytes_length]
    omega

end LizardOs.Lib
