import LizardOs.User.PrintfInteger
import Mathlib.Data.Nat.Digits.Lemmas

/-!
# Numbers as strings in the kernel

`unsigned_to_string` and its hexadecimal sibling in `nolibc/string.c`, and the functions that say how many characters they
write.  An array is the list of its bytes, and what is behind a pointer into an array is the rest of the list; a store
behind the end of an array has no result.
-/

namespace LizardOs.Nolibc

open LizardOs.User

/-- `a[i] = c`. -/
def store (a : List UInt8) (i : ℕ) (c : UInt8) : Option (List UInt8) := if i < a.length then some (a.set i c) else none

/-! ### The functions -/

/-- The loop that converts in reverse order, with `room` cells of its buffer left: what it puts there. -/
def digitLoop : ℕ → UInt64 → Option (List UInt8)
  | 0, value => if 0 < value then none else some []
  | room + 1, value =>
      if 0 < value then (digitLoop room (value / 10)).map fun buffer => ((value % 10).toUInt8 + chr '0') :: buffer
      else some []

/-- `for (j = 0; j < n; j++) str[j] = buffer[i - j - 1]`, where `i` characters are in the buffer. -/
def reverseLoop (buffer : List UInt8) : ℕ → List UInt8 → Option (List UInt8)
  | 0, str => some str
  | j + 1, str => (reverseLoop buffer j str).bind fun str => store str j (buffer.getD (buffer.length - j - 1) 0)

/-- The end of both functions: the buffer backwards, and a NUL. -/
def storeReversed (buffer str : List UInt8) : Option (List UInt8) :=
  (reverseLoop buffer buffer.length str).bind fun str => store str buffer.length 0

/-- `unsigned_to_string`: what it makes of `str`. -/
def unsignedToString (value : UInt64) (str : List UInt8) : Option (List UInt8) :=
  if value = 0 then (store str 0 (chr '0')).bind fun str => store str 1 0
  else (digitLoop 20 value).bind fun buffer => storeReversed buffer str

/-- `while (value > 0) { value /= base; i++; }`; 64 rounds are more than any value takes. -/
def sizeLoop (base : UInt64) : ℕ → UInt64 → ℕ
  | 0, _ => 0
  | n + 1, value => if 0 < value then sizeLoop base n (value / base) + 1 else 0

/-- `get_unsigned2string_final_size`. -/
def getUnsigned2stringFinalSize (value : UInt64) : ℕ := if value = 0 then 1 else sizeLoop 10 64 value

/-- `get_unsigned2hex_final_size`. -/
def getUnsigned2hexFinalSize (value : UInt64) : ℕ := if value = 0 then 1 else sizeLoop 16 64 value

/-- `hex_digits`. -/
def hexDigits : List UInt8 :=
  [48, 49, 50, 51, 52, 53, 54, 55, 56, 57, 97, 98, 99, 100, 101, 102]

/-- The loop of `unsigned_to_hexstring`, which stops at the end of its buffer. -/
def hexLoop : ℕ → UInt64 → List UInt8
  | 0, _ => []
  | room + 1, value =>
      if 0 < value then hexDigits.getD (value &&& 0xF).toNat 0 :: hexLoop room (value >>> 4) else []

/-- `unsigned_to_hexstring`. -/
def unsignedToHexstring (value : UInt64) (str : List UInt8) : Option (List UInt8) :=
  if value = 0 then (store str 0 (chr '0')).bind fun str => store str 1 0 else storeReversed (hexLoop 16 value) str

/-! ### Storing a string -/

/-- An array with a text at its beginning, if it has room for it. -/
def laid (str text : List UInt8) : Option (List UInt8) :=
  if text.length ≤ str.length then some (text ++ str.drop text.length) else none

variable {str text buffer : List UInt8} {c : UInt8} {value : UInt64} {n : ℕ}

theorem laid_eq (h : text.length ≤ str.length) : laid str text = some (text ++ str.drop text.length) := if_pos h

theorem laid_nil (str : List UInt8) : laid str [] = some str := rfl

/-- A character stored behind a text makes it longer. -/
theorem laid_store (str text : List UInt8) (c : UInt8) :
    ((laid str text).bind fun str => store str text.length c) = laid str (text ++ [c]) := by
  rw [laid, laid, List.length_append, List.length_singleton]
  by_cases hroom : text.length + 1 ≤ str.length
  · have hcons : str.drop text.length = str[text.length] :: str.drop (text.length + 1) :=
      List.drop_eq_getElem_cons (by omega)
    rw [if_pos (by omega), if_pos hroom, Option.bind_some, store, if_pos (by
      rw [List.length_append, List.length_drop]
      omega), hcons, List.set_append_right _ _ (le_refl _), Nat.sub_self, List.set_cons_zero, List.append_assoc]
    rfl
  · rw [if_neg hroom]
    by_cases hfits : text.length ≤ str.length
    · rw [if_pos hfits, Option.bind_some, store, if_neg]
      rw [List.length_append, List.length_drop]
      omega
    · rw [if_neg hfits]
      rfl

theorem reverseLoop_eq (buffer str : List UInt8) (hn : n ≤ buffer.length) :
    reverseLoop buffer n str = laid str (buffer.reverse.take n) := by
  induction n with
  | zero => exact (laid_nil str).symm
  | succ n ih =>
    have hlen : (buffer.reverse.take n).length = n := by
      rw [List.length_take, List.length_reverse]
      omega
    have hlast : buffer.reverse.take (n + 1) = buffer.reverse.take n ++ [buffer.getD (buffer.length - n - 1) 0] := by
      rw [List.take_add_one, List.getElem?_reverse (by omega), List.getD_eq_getElem?_getD,
        show buffer.length - 1 - n = buffer.length - n - 1 by omega, List.getElem?_eq_getElem (by omega)]
      rfl
    rw [reverseLoop, ih (by omega), hlast, ← laid_store, hlen]

theorem storeReversed_eq (buffer str : List UInt8) : storeReversed buffer str = laid str (buffer.reverse ++ [0]) := by
  rw [storeReversed, reverseLoop_eq buffer str (le_refl _), ← List.length_reverse, List.take_length, laid_store]

theorem storeZero_eq (str : List UInt8) :
    ((store str 0 (chr '0')).bind fun str => store str 1 0) = laid str [chr '0', 0] := by
  have hfirst : store str 0 (chr '0') = laid str [chr '0'] := laid_store str [] (chr '0')
  rw [hfirst]
  exact laid_store str [chr '0'] 0

/-! ### The digits -/

theorem digit_eq {d : ℕ} (hd : d < 10) : UInt8.ofNat d + chr '0' = digs false d :=
  (by decide : ∀ d : Fin 10, UInt8.ofNat d + chr '0' = digs false d) ⟨d, hd⟩

theorem pos_iff (value : UInt64) : 0 < value ↔ value.toNat ≠ 0 := by
  rw [UInt64.lt_iff_toNat_lt, Nat.pos_iff_ne_zero.symm]
  rfl

theorem toNat_eq_zero (h : ¬0 < value) : value.toNat = 0 := not_not.mp (h ∘ (pos_iff value).mpr)

/-- The last digit, and the digits of the quotient. -/
theorem digits_eq {base : ℕ} (hbase : 1 < base) (h : 0 < value) :
    Nat.digits base value.toNat = value.toNat % base :: Nat.digits base (value.toNat / base) :=
  Nat.digits_def' hbase (Nat.pos_of_ne_zero ((pos_iff value).mp h))

theorem div_lt_pow {base v : ℕ} (h : v < base ^ (n + 1)) : v / base < base ^ n :=
  Nat.div_lt_of_lt_mul (by rwa [Nat.mul_comm, ← pow_succ])

/-- The digits, the last one first, as long as there is room. -/
theorem digitLoop_eq (h : value.toNat < 10 ^ n) :
    digitLoop n value = some ((Nat.digits 10 value.toNat).map (digs false)) := by
  induction n generalizing value with
  | zero =>
    have hzero : value.toNat = 0 := Nat.lt_one_iff.mp h
    rw [digitLoop, if_neg (fun hpos => (pos_iff value).mp hpos hzero), hzero]
    rfl
  | succ n ih =>
    rw [digitLoop]
    by_cases hpos : 0 < value
    · have hdiv : (value / 10).toNat = value.toNat / 10 := UInt64.toNat_div ..
      have hdigit : (value % 10).toUInt8 + chr '0' = digs false (value.toNat % 10) := by
        have hmod : (value % 10).toNat = value.toNat % 10 := UInt64.toNat_mod ..
        rw [← digit_eq (Nat.mod_lt _ (by decide)), ← hmod]
        rfl
      have hlt : (value / 10).toNat < 10 ^ n := by
        rw [hdiv]
        exact div_lt_pow h
      rw [if_pos hpos, ih hlt, Option.map_some, hdigit, hdiv, digits_eq (by decide) hpos, List.map_cons]
    · rw [if_neg hpos, toNat_eq_zero hpos]
      rfl

theorem sizeLoop_eq {base : UInt64} (hbase : 2 ≤ base.toNat) (h : value.toNat < base.toNat ^ n) :
    sizeLoop base n value = (Nat.digits base.toNat value.toNat).length := by
  induction n generalizing value with
  | zero =>
    have hzero : value.toNat = 0 := Nat.lt_one_iff.mp h
    rw [sizeLoop, hzero, Nat.digits_zero]
    rfl
  | succ n ih =>
    rw [sizeLoop]
    by_cases hpos : 0 < value
    · have hdiv : (value / base).toNat = value.toNat / base.toNat := UInt64.toNat_div ..
      have hlt : (value / base).toNat < base.toNat ^ n := by
        rw [hdiv]
        exact div_lt_pow h
      rw [if_pos hpos, ih hlt, hdiv, digits_eq hbase hpos, List.length_cons]
    · rw [if_neg hpos, toNat_eq_zero hpos, Nat.digits_zero]
      rfl

/-! ### The strings -/

theorem zero_iff (value : UInt64) : value = 0 ↔ value.toNat = 0 := UInt64.toNat_inj.symm

/-- A numeral without the case of zero. -/
theorem numeral_of_ne (base : ℕ) {v : ℕ} (hv : v ≠ 0) :
    numeral base false v = ((Nat.digits base v).map (digs false)).reverse := if_neg hv

/-- **`unsigned_to_string`** writes the numeral and a NUL, when there is room for them. -/
theorem unsignedToString_eq (value : UInt64) (str : List UInt8) :
    unsignedToString value str = laid str (numeral 10 false value.toNat ++ [0]) := by
  rw [unsignedToString]
  by_cases hzero : value = 0
  · rw [if_pos hzero, hzero]
    exact storeZero_eq str
  · have hlt : value.toNat < 10 ^ 20 := value.toNat_lt.trans (by decide)
    rw [if_neg hzero, digitLoop_eq hlt, Option.bind_some, storeReversed_eq,
      numeral_of_ne 10 (hzero ∘ (zero_iff value).mpr)]

theorem length_numeral (base : ℕ) {v : ℕ} (hv : v ≠ 0) : (numeral base false v).length = (Nat.digits base v).length := by
  rw [numeral_of_ne base hv, List.length_reverse, List.length_map]

/-- The sizes are the lengths of the numerals. -/
theorem getUnsigned2stringFinalSize_eq (value : UInt64) :
    getUnsigned2stringFinalSize value = (numeral 10 false value.toNat).length := by
  rw [getUnsigned2stringFinalSize]
  by_cases hzero : value = 0
  · rw [if_pos hzero, hzero]
    rfl
  · have hlt : value.toNat < 10 ^ 64 := value.toNat_lt.trans (by decide)
    rw [if_neg hzero, length_numeral 10 (hzero ∘ (zero_iff value).mpr)]
    exact sizeLoop_eq (by decide) hlt

theorem length_numeral_le {base v k : ℕ} (hbase : 1 < base) (hk : 0 < k) (hv : v < base ^ k) :
    (numeral base false v).length ≤ k := by
  by_cases hzero : v = 0
  · rw [hzero]
    exact hk
  · rw [length_numeral base hzero]
    exact (Nat.digits_length_le_iff hbase v).mpr hv

/-- The decimal representation of a number: digits that write it, without leading zeros. -/
structure IsDecimal (text : List UInt8) (v : ℕ) : Prop where
  digit : ∀ c ∈ text, isdigit c = true
  value : numeralValue 10 0 text = v
  head : text.head? = some (chr '0') → text = [chr '0']
  nonempty : text ≠ []

/-- Only the numeral of zero begins with a zero. -/
theorem head_numeral (v : ℕ) (h : (numeral 10 false v).head? = some (chr '0')) : v = 0 := by
  by_contra hne
  have hdigits : Nat.digits 10 v ≠ [] := Nat.digits_ne_nil_iff_ne_zero.mpr hne
  have hlast := Nat.getLast_digit_ne_zero 10 hne
  have hlt : (Nat.digits 10 v).getLast hdigits < 10 := Nat.digits_lt_base (by decide) (List.getLast_mem hdigits)
  rw [numeral_of_ne 10 hne, List.head?_reverse, List.getLast?_map, List.getLast?_eq_some_getLast hdigits,
    Option.map_some, Option.some.injEq] at h
  have hall : ∀ d : Fin 10, digs false d = chr '0' → d.val = 0 := by decide
  exact hlast (hall ⟨_, hlt⟩ h)

theorem numeral_length_pos (v : ℕ) : 0 < (numeral 10 false v).length := by
  by_cases hzero : v = 0
  · rw [hzero]
    decide
  · rw [length_numeral 10 hzero]
    exact List.length_pos_iff.mpr (Nat.digits_ne_nil_iff_ne_zero.mpr hzero)

theorem isDecimal_numeral (v : ℕ) : IsDecimal (numeral 10 false v) v where
  digit := isdigit_numeral v
  value := numeralValue_numeral (by decide) (by decide) false v
  head := by
    intro h
    rw [head_numeral v h]
    rfl
  nonempty := List.length_pos_iff.mp (numeral_length_pos v)

/-- No number of 64 bits has more than 20 digits. -/
theorem size_le (value : UInt64) : getUnsigned2stringFinalSize value ≤ 20 := by
  rw [getUnsigned2stringFinalSize_eq]
  exact length_numeral_le (by decide) (by decide) (value.toNat_lt.trans (by decide))

/-- The string and its NUL, in an array that is longer than `get_unsigned2string_final_size` says. -/
theorem unsignedToString_room (h : getUnsigned2stringFinalSize value < str.length) :
    unsignedToString value str =
      some (numeral 10 false value.toNat ++ 0 :: str.drop (getUnsigned2stringFinalSize value + 1)) := by
  have hlen : (numeral 10 false value.toNat ++ [0]).length = getUnsigned2stringFinalSize value + 1 := by
    rw [List.length_append, List.length_singleton, getUnsigned2stringFinalSize_eq]
  rw [unsignedToString_eq, laid_eq (by omega), hlen, List.append_assoc]
  rfl

end LizardOs.Nolibc
