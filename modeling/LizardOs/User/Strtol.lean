import LizardOs.User.PrintfInteger
import Mathlib.Data.List.TakeWhile

/-!
# Numbers in text

`userspace/lib/stdlib.c`: `strtol` reads white space, a sign, a prefix and digits.  A string is the list of its characters,
without the NUL, and `*end` is given as the number of characters in front of it.

It finds the longest number at the beginning of a string, except where a prefix `0x` has no digit behind it
(`strtol_iff`).
-/

namespace LizardOs.User

open LizardOs.Lib

/-- What `digitval` makes of a digit or a letter, and −1 of other characters. -/
def alnumValue (c : UInt8) : ℤ :=
  if chr '0' ≤ c ∧ c ≤ chr '9' then c.toNat - (chr '0').toNat
  else if chr 'a' ≤ c ∧ c ≤ chr 'z' then c.toNat - (chr 'a').toNat + 10
  else if chr 'A' ≤ c ∧ c ≤ chr 'Z' then c.toNat - (chr 'A').toNat + 10
  else -1

def digitval (c : UInt8) (base : ℤ) : ℤ := if alnumValue c < base then alnumValue c else -1

/-- A `long` wraps around. -/
def wrapLong (x : ℤ) : ℤ := x.bmod (2 ^ 64)

/-- The loop over the digits: the number, whether there was a digit, and what is left. -/
def strtolDigits (base : ℤ) : List UInt8 → ℤ → Bool → ℤ × Bool × List UInt8
  | [], acc, any => (acc, any, [])
  | c :: p, acc, any =>
      if digitval c base < 0 then (acc, any, c :: p)
      else strtolDigits base p (wrapLong (wrapLong (acc * base) + digitval c base)) true

/-- `*p == ' ' || (*p >= '\t' && *p <= '\r')`. -/
def blank (c : UInt8) : Bool := c == chr ' ' || (decide (9 ≤ c) && decide (c ≤ 13))

/-- Whether there is a minus sign, and what follows the sign. -/
def strtolSign (p : List UInt8) : Bool × List UInt8 :=
  match p with
  | [] => (false, [])
  | c :: q => if c = chr '+' ∨ c = chr '-' then (decide (c = chr '-'), q) else (false, c :: q)

/-- The base, and what follows the prefix. -/
def strtolBase (base : ℤ) (p : List UInt8) : ℤ × List UInt8 :=
  if (base = 0 ∨ base = 16) ∧ p.head? = some (chr '0') ∧ (p[1]? = some (chr 'x') ∨ p[1]? = some (chr 'X')) then
    (16, p.drop 2)
  else if base = 0 ∧ p.head? = some (chr '0') then (8, p)
  else if base = 0 then (10, p)
  else (base, p)

/-- `strtol`: the number, and where `*end` points to. -/
def strtol (s : List UInt8) (base : ℤ) : ℤ × ℕ :=
  let p := s.dropWhile blank
  let (neg, p) := strtolSign p
  let (base, p) := strtolBase base p
  let (acc, any, p) := strtolDigits base p 0 false
  (if neg then wrapLong (-acc) else acc, if any then s.length - p.length else 0)

/-! ### Numbers at the beginning of a string -/

/-- A digit to the base `b`. -/
def isDigitOf (b : ℕ) (c : UInt8) : Bool := decide (0 ≤ alnumValue c) && decide (digitValue c < b)

/-- The base of the digits behind a prefix. -/
def digitBase (base : ℕ) (pre ds : List UInt8) : ℕ :=
  if pre ≠ [] then 16 else if base = 0 then (if ds.head? = some (chr '0') then 8 else 10) else base

/-- A prefix, where one is allowed, and digits. -/
structure Digits0x (base : ℕ) (pre ds : List UInt8) : Prop where
  hex : pre ≠ [] → (base = 0 ∨ base = 16) ∧ (pre = [chr '0', chr 'x'] ∨ pre = [chr '0', chr 'X'])
  nonempty : ds ≠ []
  digits : ∀ c ∈ ds, isDigitOf (digitBase base pre ds) c = true

/-- A sign, or none. -/
def IsSign (sign : List UInt8) : Prop := sign = [] ∨ sign = [chr '+'] ∨ sign = [chr '-']

/-- A number with the length `n` and the value `v` stands at the beginning of `s`. -/
def NumberAt (base : ℕ) (s : List UInt8) (n : ℕ) (v : ℤ) : Prop :=
  ∃ ws sign pre ds rest, s = ws ++ (sign ++ (pre ++ (ds ++ rest))) ∧ (∀ c ∈ ws, blank c = true) ∧ IsSign sign ∧
    Digits0x base pre ds ∧ n = ws.length + sign.length + pre.length + ds.length ∧
    v = if sign = [chr '-'] then -(numeralValue (digitBase base pre ds) 0 ds : ℤ)
      else numeralValue (digitBase base pre ds) 0 ds

/-- The longest number at the beginning of `s`. -/
def LongestAt (base : ℕ) (s : List UInt8) (n : ℕ) (v : ℤ) : Prop :=
  NumberAt base s n v ∧ ∀ m w, NumberAt base s m w → m ≤ n

/-- The number fits in a `long`. -/
def FitsLong (v : ℤ) : Prop := -2 ^ 63 ≤ v ∧ v < 2 ^ 63

/-- What `strtol` should do: give the longest number, if it fits, and nothing when there is none. -/
def ParsesLongest (base : ℕ) (s : List UInt8) : Prop :=
  (∀ n v, LongestAt base s n v → FitsLong v → strtol s base = (v, n)) ∧
    ((¬∃ n v, NumberAt base s n v) → strtol s base = (0, 0))

/-- Behind white space and a sign there is a prefix `0x` that is allowed, without a digit behind it. -/
def BarePrefix (base : ℕ) (s : List UInt8) : Prop :=
  (base = 0 ∨ base = 16) ∧ ∃ ws sign x q, s = ws ++ (sign ++ chr '0' :: x :: q) ∧ (∀ c ∈ ws, blank c = true) ∧
    IsSign sign ∧ (x = chr 'x' ∨ x = chr 'X') ∧ ∀ c, q.head? = some c → isDigitOf 16 c = false

variable {base b w : ℕ} {s p q ws sign t pre ds rest : List UInt8} {c : UInt8}

/-! ### Digits -/

theorem alnumValue_eq (c : UInt8) : alnumValue c = if 0 ≤ alnumValue c then (digitValue c : ℤ) else -1 := by
  have hall : ∀ c : Fin 256, alnumValue (UInt8.ofNat c) =
      if 0 ≤ alnumValue (UInt8.ofNat c) then (digitValue (UInt8.ofNat c) : ℤ) else -1 := by decide +kernel
  have hc := hall ⟨c.toNat, c.toNat_lt⟩
  rwa [UInt8.ofNat_toNat] at hc

theorem digitval_eq (b : ℕ) (c : UInt8) : digitval c b = if isDigitOf b c = true then (digitValue c : ℤ) else -1 := by
  have hvalue := alnumValue_eq c
  rw [digitval, isDigitOf]
  by_cases halnum : 0 ≤ alnumValue c
  · rw [if_pos halnum] at hvalue
    rw [decide_eq_true halnum, Bool.true_and]
    by_cases hlt : digitValue c < b
    · rw [decide_eq_true hlt, if_pos rfl, if_pos (by omega), hvalue]
    · rw [decide_eq_false hlt, if_neg Bool.false_ne_true, if_neg (by omega)]
  · rw [if_neg halnum] at hvalue
    rw [decide_eq_false halnum, Bool.false_and, if_neg Bool.false_ne_true, hvalue]
    exact ite_self _

/-- A digit is neither white space nor a sign. -/
theorem isDigitOf_start (h : isDigitOf b c = true) : blank c = false ∧ c ≠ chr '+' ∧ c ≠ chr '-' := by
  have hall : ∀ c : Fin 256, 0 ≤ alnumValue (UInt8.ofNat c) → blank (UInt8.ofNat c) = false ∧
      UInt8.ofNat c ≠ chr '+' ∧ UInt8.ofNat c ≠ chr '-' := by decide +kernel
  have hc := hall ⟨c.toNat, c.toNat_lt⟩
  rw [UInt8.ofNat_toNat] at hc
  rw [isDigitOf, Bool.and_eq_true, decide_eq_true_eq] at h
  exact hc h.1

/-- The digits at the beginning of `q`. -/
def digitRun (b : ℕ) (q : List UInt8) : List UInt8 := q.takeWhile (isDigitOf b)

theorem wrapLong_digit (w b d : ℕ) :
    wrapLong (wrapLong (wrapLong w * b) + d) = wrapLong ((w * b + d : ℕ) : ℤ) := by
  rw [wrapLong, wrapLong, wrapLong, wrapLong, Int.bmod_mul_bmod, Int.bmod_add_bmod, Int.natCast_add, Int.natCast_mul]

/-- The loop reads the longest run of digits. -/
theorem strtolDigits_eq (b : ℕ) (p : List UInt8) (w : ℕ) (any : Bool) :
    strtolDigits b p (wrapLong w) any =
      (wrapLong (numeralValue b w (digitRun b p)), any || !(digitRun b p).isEmpty, p.dropWhile (isDigitOf b)) := by
  induction p generalizing w any with
  | nil =>
    rw [digitRun, List.takeWhile_nil, List.dropWhile_nil, List.isEmpty_nil, Bool.not_true, Bool.or_false]
    rfl
  | cons c p ih =>
    rw [strtolDigits, digitval_eq]
    by_cases hdigit : isDigitOf b c = true
    · rw [if_pos hdigit, if_neg (by omega), wrapLong_digit, ih, digitRun, digitRun,
        List.takeWhile_cons_of_pos hdigit, List.dropWhile_cons_of_pos hdigit, Bool.true_or, List.isEmpty_cons,
        Bool.not_false, Bool.or_true]
      rfl
    · rw [if_neg hdigit, if_pos (by decide), digitRun, List.takeWhile_cons_of_neg hdigit,
        List.dropWhile_cons_of_neg hdigit, List.isEmpty_nil, Bool.not_true, Bool.or_false]
      rfl

/-! ### White space and the sign -/

theorem dropWhile_blank (hws : ∀ c ∈ ws, blank c = true) (hc : blank c = false) :
    (ws ++ c :: t).dropWhile blank = c :: t := by
  rw [List.dropWhile_append_of_pos hws, List.dropWhile_cons_of_neg (by rw [hc]; exact Bool.false_ne_true)]

/-- However white space and a sign are split off, the rest is what the code goes on with. -/
theorem strtolSign_start (hws : ∀ c ∈ ws, blank c = true) (hsign : IsSign sign)
    (hc : blank c = false ∧ c ≠ chr '+' ∧ c ≠ chr '-') :
    strtolSign ((ws ++ (sign ++ c :: t)).dropWhile blank) = (decide (sign = [chr '-']), c :: t) := by
  obtain ⟨hblank, hplus, hminus⟩ := hc
  rcases hsign with rfl | rfl | rfl
  · rw [List.nil_append, dropWhile_blank hws hblank, strtolSign, if_neg (not_or.mpr ⟨hplus, hminus⟩)]
    rfl
  · rw [List.singleton_append, dropWhile_blank hws (by decide)]
    rfl
  · rw [List.singleton_append, dropWhile_blank hws (by decide)]
    rfl

theorem exists_start (s : List UInt8) : ∃ ws sign p, s = ws ++ (sign ++ p) ∧ (∀ c ∈ ws, blank c = true) ∧ IsSign sign ∧
    strtolSign (s.dropWhile blank) = (decide (sign = [chr '-']), p) := by
  have hws : ∀ c ∈ s.takeWhile blank, blank c = true := fun c hc => List.mem_takeWhile_imp hc
  have hs : s = s.takeWhile blank ++ s.dropWhile blank := List.takeWhile_append_dropWhile.symm
  cases hp : s.dropWhile blank with
  | nil => exact ⟨s.takeWhile blank, [], [], by rw [hp] at hs; exact hs, hws, .inl rfl, rfl⟩
  | cons c q =>
    rw [hp] at hs
    by_cases hsign : c = chr '+' ∨ c = chr '-'
    · refine ⟨s.takeWhile blank, [c], q, hs, hws, ?_, ?_⟩
      · rcases hsign with rfl | rfl
        · exact .inr (.inl rfl)
        · exact .inr (.inr rfl)
      · rw [strtolSign, if_pos hsign]
        rcases hsign with rfl | rfl
        · rfl
        · rfl
    · exact ⟨s.takeWhile blank, [], c :: q, hs, hws, .inl rfl, if_neg hsign⟩

theorem Digits0x.start (h : Digits0x base pre ds) (rest : List UInt8) :
    ∃ c t, pre ++ (ds ++ rest) = c :: t ∧ blank c = false ∧ c ≠ chr '+' ∧ c ≠ chr '-' := by
  cases pre with
  | nil =>
    obtain ⟨c, ds', rfl⟩ := List.exists_cons_of_ne_nil h.nonempty
    exact ⟨c, ds' ++ rest, rfl, isDigitOf_start (h.digits c List.mem_cons_self)⟩
  | cons c pre' =>
    obtain ⟨-, hpre⟩ := h.hex (List.cons_ne_nil c pre')
    refine ⟨c, pre' ++ (ds ++ rest), rfl, ?_⟩
    rcases hpre with hpre | hpre
    · rw [(List.cons.inj hpre).1]
      decide
    · rw [(List.cons.inj hpre).1]
      decide

/-- The value of digits behind a sign. -/
def signedNumber (sign : List UInt8) (b : ℕ) (ds : List UInt8) : ℤ :=
  if sign = [chr '-'] then -(numeralValue b 0 ds : ℤ) else numeralValue b 0 ds

/-- The numbers at the beginning of a string are those behind its white space and its sign. -/
theorem numberAt_iff (base : ℕ) {n : ℕ} {v : ℤ} (hs : s = ws ++ (sign ++ p)) (hws : ∀ c ∈ ws, blank c = true)
    (hsign : IsSign sign) (hp : strtolSign (s.dropWhile blank) = (decide (sign = [chr '-']), p)) :
    NumberAt base s n v ↔ ∃ pre ds rest, p = pre ++ (ds ++ rest) ∧ Digits0x base pre ds ∧
      n = ws.length + sign.length + pre.length + ds.length ∧ v = signedNumber sign (digitBase base pre ds) ds := by
  constructor
  · rintro ⟨ws', sign', pre, ds, rest, hs', hws', hsign', hdigits, hn, hv⟩
    obtain ⟨c, t, ht, hc⟩ := hdigits.start rest
    have hp' := strtolSign_start hws' hsign' hc (t := t)
    rw [← ht, ← hs', hp] at hp'
    obtain ⟨hminus, hrest⟩ := Prod.mk.inj hp'
    have hlen := congrArg List.length (hs.symm.trans hs')
    rw [hrest] at hlen
    simp only [List.length_append] at hlen
    refine ⟨pre, ds, rest, hrest, hdigits, by omega, ?_⟩
    rw [hv, signedNumber]
    exact if_congr (decide_eq_decide.mp hminus).symm rfl rfl
  · rintro ⟨pre, ds, rest, hrest, hdigits, hn, hv⟩
    exact ⟨ws, sign, pre, ds, rest, by rw [hs, hrest], hws, hsign, hdigits, hn, hv⟩

/-! ### The prefix -/

theorem length_digitRun (b : ℕ) (q : List UInt8) :
    (digitRun b q).length + (q.dropWhile (isDigitOf b)).length = q.length := by
  rw [← List.length_append, digitRun, List.takeWhile_append_dropWhile]

theorem isDigitOf_digitRun : ∀ c ∈ digitRun b q, isDigitOf b c = true := fun _ hc => List.mem_takeWhile_imp hc

/-- Digits at the beginning of `q` are no more than the longest run, and the same if they are as many. -/
theorem le_digitRun (hq : q = ds ++ rest) (hds : ∀ c ∈ ds, isDigitOf b c = true) :
    ds.length ≤ (digitRun b q).length ∧ ((digitRun b q).length ≤ ds.length → ds = digitRun b q) := by
  have hrun : digitRun b q = ds ++ digitRun b rest := by
    rw [hq]
    exact List.takeWhile_append_of_pos hds
  have hlen := congrArg List.length hrun
  rw [List.length_append] at hlen
  refine ⟨by omega, fun hle => ?_⟩
  rw [hrun, List.eq_nil_of_length_eq_zero (l := digitRun b rest) (by omega), List.append_nil]

/-- What the code makes of the base and the prefix, and that no number behind them is longer. -/
structure Best (base : ℕ) (p pre : List UInt8) (b : ℕ) (q : List UInt8) : Prop where
  split : p = pre ++ q
  code : strtolBase base p = ((b : ℤ), q)
  digits : digitRun b q ≠ [] → Digits0x base pre (digitRun b q) ∧ digitBase base pre (digitRun b q) = b
  best : ∀ pre' ds rest, p = pre' ++ (ds ++ rest) → Digits0x base pre' ds → digitRun b q ≠ [] →
    pre'.length + ds.length ≤ pre.length + (digitRun b q).length ∧
      (pre.length + (digitRun b q).length ≤ pre'.length + ds.length → pre' = pre ∧ ds = digitRun b q)
  none : ∀ pre' ds rest, p = pre' ++ (ds ++ rest) → Digits0x base pre' ds → digitRun b q = [] →
    pre ≠ [] ∧ pre'.length + ds.length = 1

/-- No prefix: the base is chosen by the first digit. -/
theorem best_plain (hp : ¬((base = 0 ∨ base = 16) ∧ p.head? = some (chr '0') ∧
    (p[1]? = some (chr 'x') ∨ p[1]? = some (chr 'X')))) : Best base p [] (digitBase base [] p) p := by
  have hnone : ∀ pre' ds rest, p = pre' ++ (ds ++ rest) → Digits0x base pre' ds → pre' = [] := by
    intro pre' ds rest hsplit hdigits
    by_contra hne
    obtain ⟨hbase, hpre⟩ := hdigits.hex hne
    refine hp ⟨hbase, ?_⟩
    rw [hsplit]
    rcases hpre with rfl | rfl
    · exact ⟨rfl, .inl rfl⟩
    · exact ⟨rfl, .inr rfl⟩
  have hsame : ∀ ds rest, p = ds ++ rest → ds ≠ [] → digitBase base [] ds = digitBase base [] p := by
    intro ds rest hsplit hne
    obtain ⟨c, ds', rfl⟩ := List.exists_cons_of_ne_nil hne
    rw [hsplit]
    rfl
  have hrun : p = digitRun (digitBase base [] p) p ++ p.dropWhile (isDigitOf (digitBase base [] p)) :=
    List.takeWhile_append_dropWhile.symm
  refine ⟨rfl, ?_, fun hne => ?_, fun pre' ds rest hsplit hdigits _ => ?_, fun pre' ds rest hsplit hdigits hempty => ?_⟩
  · have hcast : ¬((((base : ℤ) = 0 ∨ (base : ℤ) = 16)) ∧ p.head? = some (chr '0') ∧
        (p[1]? = some (chr 'x') ∨ p[1]? = some (chr 'X'))) := fun h => hp ⟨by omega, h.2⟩
    rw [strtolBase, if_neg hcast, digitBase, if_neg (not_not.mpr rfl)]
    by_cases hzero : base = 0
    · have hcast : (base : ℤ) = 0 := by omega
      rw [if_pos hzero]
      by_cases hhead : p.head? = some (chr '0')
      · rw [if_pos ⟨hcast, hhead⟩, if_pos hhead]
        rfl
      · rw [if_neg fun h => hhead h.2, if_pos hcast, if_neg hhead]
        rfl
    · have hne : (base : ℤ) ≠ 0 := by omega
      rw [if_neg fun h => hne h.1, if_neg hne, if_neg hzero]
  · have hbase := hsame _ _ hrun hne
    refine ⟨⟨fun h => absurd rfl h, hne, ?_⟩, hbase⟩
    rw [hbase]
    exact isDigitOf_digitRun
  · obtain rfl := hnone pre' ds rest hsplit hdigits
    have hsplit : p = ds ++ rest := hsplit
    have hds := hdigits.digits
    rw [hsame ds rest hsplit hdigits.nonempty] at hds
    obtain ⟨hle, heq⟩ := le_digitRun hsplit hds
    exact ⟨Nat.add_le_add_left hle _, fun h => ⟨rfl, heq (Nat.le_of_add_le_add_left h)⟩⟩
  · obtain rfl := hnone pre' ds rest hsplit hdigits
    have hsplit : p = ds ++ rest := hsplit
    have hds := hdigits.digits
    rw [hsame ds rest hsplit hdigits.nonempty] at hds
    obtain ⟨hle, -⟩ := le_digitRun hsplit hds
    rw [hempty] at hle
    exact absurd (List.eq_nil_of_length_eq_zero (Nat.le_zero.mp hle)) hdigits.nonempty

/-- A prefix `0x`: without it the number is the 0 alone. -/
theorem best_hex (hbase : base = 0 ∨ base = 16) {x : UInt8} (hx : x = chr 'x' ∨ x = chr 'X') (q : List UInt8) :
    Best base (chr '0' :: x :: q) [chr '0', x] 16 q := by
  have hzero : ∀ ds rest, chr '0' :: x :: q = ds ++ rest → Digits0x base [] ds → ds = [chr '0'] := by
    intro ds rest hsplit hdigits
    obtain ⟨c, ds', rfl⟩ := List.exists_cons_of_ne_nil hdigits.nonempty
    obtain ⟨rfl, hrest⟩ := List.cons.inj hsplit
    cases ds' with
    | nil => rfl
    | cons y ds' =>
      obtain ⟨rfl, -⟩ := List.cons.inj hrest
      have hdigit := hdigits.digits x (List.mem_cons_of_mem _ List.mem_cons_self)
      have hnot : ∀ b, b = 8 ∨ b = 16 → isDigitOf b x = false := by
        rintro b (rfl | rfl)
        · rcases hx with rfl | rfl
          · decide
          · decide
        · rcases hx with rfl | rfl
          · decide
          · decide
      rw [hnot] at hdigit
      · cases hdigit
      · rcases hbase with rfl | rfl
        · exact .inl rfl
        · exact .inr rfl
  have hpre : ∀ pre' ds rest, chr '0' :: x :: q = pre' ++ (ds ++ rest) → Digits0x base pre' ds → pre' ≠ [] →
      pre' = [chr '0', x] ∧ q = ds ++ rest ∧ ∀ c ∈ ds, isDigitOf 16 c = true := by
    intro pre' ds rest hsplit hdigits hne
    have hds := hdigits.digits
    rw [digitBase, if_pos hne] at hds
    obtain ⟨-, hpre⟩ := hdigits.hex hne
    rcases hpre with rfl | rfl
    · obtain ⟨hx', hq⟩ := List.cons.inj (List.cons.inj hsplit).2
      exact ⟨by rw [hx'], hq, hds⟩
    · obtain ⟨hx', hq⟩ := List.cons.inj (List.cons.inj hsplit).2
      exact ⟨by rw [hx'], hq, hds⟩
  refine ⟨rfl, ?_, fun hne => ?_, fun pre' ds rest hsplit hdigits _ => ?_, fun pre' ds rest hsplit hdigits hempty =>
    ⟨List.cons_ne_nil _ _, ?_⟩⟩
  · have hcode : (((base : ℤ) = 0 ∨ (base : ℤ) = 16)) ∧ (chr '0' :: x :: q).head? = some (chr '0') ∧
        ((chr '0' :: x :: q)[1]? = some (chr 'x') ∨ (chr '0' :: x :: q)[1]? = some (chr 'X')) :=
      ⟨by omega, rfl, hx.imp (congrArg some) (congrArg some)⟩
    exact if_pos hcode
  · refine ⟨⟨fun _ => ⟨hbase, ?_⟩, hne, isDigitOf_digitRun⟩, rfl⟩
    rcases hx with rfl | rfl
    · exact .inl rfl
    · exact .inr rfl
  · by_cases hne : pre' = []
    · subst hne
      rw [hzero ds rest hsplit hdigits]
      simp only [List.length_nil, List.length_cons]
      exact ⟨by omega, fun h => absurd h (by omega)⟩
    · obtain ⟨rfl, hq, hds⟩ := hpre pre' ds rest hsplit hdigits hne
      obtain ⟨hle, heq⟩ := le_digitRun hq hds
      exact ⟨Nat.add_le_add_left hle _, fun h => ⟨rfl, heq (Nat.le_of_add_le_add_left h)⟩⟩
  · by_cases hne : pre' = []
    · subst hne
      rw [hzero ds rest hsplit hdigits]
      rfl
    · obtain ⟨rfl, hq, hds⟩ := hpre pre' ds rest hsplit hdigits hne
      obtain ⟨hle, -⟩ := le_digitRun hq hds
      rw [hempty] at hle
      exact absurd (List.eq_nil_of_length_eq_zero (Nat.le_zero.mp hle)) hdigits.nonempty

theorem exists_best (base : ℕ) (p : List UInt8) : ∃ pre b q, Best base p pre b q ∧
    (pre = [] ∨ (base = 0 ∨ base = 16) ∧ b = 16 ∧ ∃ x, pre = [chr '0', x] ∧ (x = chr 'x' ∨ x = chr 'X')) := by
  by_cases hp : (base = 0 ∨ base = 16) ∧ p.head? = some (chr '0') ∧ (p[1]? = some (chr 'x') ∨ p[1]? = some (chr 'X'))
  · obtain ⟨hbase, hhead, hx⟩ := hp
    cases p with
    | nil => cases hhead
    | cons c p =>
      obtain rfl := Option.some.inj hhead
      cases p with
      | nil => rcases hx with hx | hx <;> cases hx
      | cons x q =>
        have hx : x = chr 'x' ∨ x = chr 'X' := hx.imp Option.some.inj Option.some.inj
        exact ⟨_, 16, q, best_hex hbase hx q, .inr ⟨hbase, rfl, x, rfl, hx⟩⟩
  · exact ⟨[], _, p, best_plain hp, .inl rfl⟩

/-! ### The longest number -/

/-- What `strtol` gives, for the base and the rest that the code goes on with. -/
theorem strtol_eq {neg : Bool} (hp : strtolSign (s.dropWhile blank) = (neg, p)) (hbest : Best base p pre b q) :
    strtol s base =
      (if neg then wrapLong (-wrapLong (numeralValue b 0 (digitRun b q))) else wrapLong (numeralValue b 0 (digitRun b q)),
        if digitRun b q = [] then 0 else s.length - (q.dropWhile (isDigitOf b)).length) := by
  have hzero : (0 : ℤ) = wrapLong ((0 : ℕ) : ℤ) := by decide
  have hempty : ∀ l : List UInt8, (false || !l.isEmpty) = decide (l ≠ []) := by
    intro l
    cases l with
    | nil => rfl
    | cons c l => rfl
  rw [strtol]
  simp only [hp, hbest.code]
  rw [hzero, strtolDigits_eq, hempty]
  simp only [decide_eq_true_eq, ite_not]

theorem wrapLong_of_fits {v : ℤ} (hv : FitsLong v) : wrapLong v = v := by
  obtain ⟨hlo, hhi⟩ := hv
  rw [wrapLong]
  exact Int.bmod_eq_of_le (by omega) (by omega)

theorem wrapLong_neg (v : ℤ) : wrapLong (-wrapLong v) = wrapLong (-v) := by
  rw [wrapLong, wrapLong, wrapLong, ← Int.mul_neg_one, Int.bmod_mul_bmod, Int.mul_neg_one]

theorem digitRun_eq_nil : digitRun b q = [] ↔ ∀ c, q.head? = some c → isDigitOf b c = false := by
  cases q with
  | nil => exact iff_of_true rfl fun c h => by cases h
  | cons c q =>
    rw [digitRun]
    cases hc : isDigitOf b c with
    | true =>
      rw [List.takeWhile_cons_of_pos hc]
      exact iff_of_false (List.cons_ne_nil _ _) fun h => absurd (h c rfl) (by rw [hc]; decide)
    | false =>
      rw [List.takeWhile_cons_of_neg (by rw [hc]; exact Bool.false_ne_true)]
      exact iff_of_true rfl fun d hd => by rw [← Option.some.inj hd, hc]

/-- A bare prefix is one that the code passes over without finding a digit. -/
theorem barePrefix_iff (hs : s = ws ++ (sign ++ p)) (hws : ∀ c ∈ ws, blank c = true) (hsign : IsSign sign)
    (hp : strtolSign (s.dropWhile blank) = (decide (sign = [chr '-']), p)) (hbest : Best base p pre b q)
    (hpre : pre = [] ∨ (base = 0 ∨ base = 16) ∧ b = 16 ∧ ∃ x, pre = [chr '0', x] ∧ (x = chr 'x' ∨ x = chr 'X')) :
    BarePrefix base s ↔ pre ≠ [] ∧ digitRun b q = [] := by
  constructor
  · rintro ⟨hbase, ws', sign', x, q', hs', hws', hsign', hx, hq'⟩
    have hp' := strtolSign_start (t := x :: q') hws' hsign' (by decide : blank (chr '0') = false ∧ chr '0' ≠ chr '+' ∧
      chr '0' ≠ chr '-')
    rw [← hs', hp] at hp'
    have hsplit : p = chr '0' :: x :: q' := (Prod.mk.inj hp').2
    have hcode := (best_hex hbase hx q').code
    rw [← hsplit, hbest.code] at hcode
    obtain ⟨hb, rfl⟩ := Prod.mk.inj hcode
    have hb : b = 16 := Int.ofNat.inj hb
    refine ⟨?_, by rw [hb]; exact digitRun_eq_nil.mpr hq'⟩
    rintro rfl
    have hlen := congrArg List.length (hbest.split.symm.trans hsplit)
    simp only [List.nil_append, List.length_cons] at hlen
    omega
  · rintro ⟨hne, hempty⟩
    rcases hpre with hpre | ⟨hbase, rfl, x, rfl, hx⟩
    · exact absurd hpre hne
    · exact ⟨hbase, ws, sign, x, q, by rw [hs, hbest.split]; rfl, hws, hsign, hx, digitRun_eq_nil.mp hempty⟩

/-- Of a bare prefix, the 0 is a number, and there is no longer one. -/
theorem longestAt_bare {x : UInt8} (hs : s = ws ++ (sign ++ chr '0' :: x :: q)) (hws : ∀ c ∈ ws, blank c = true)
    (hsign : IsSign sign)
    (hp : strtolSign (s.dropWhile blank) = (decide (sign = [chr '-']), chr '0' :: x :: q)) (hbase : base = 0 ∨ base = 16)
    (hx : x = chr 'x' ∨ x = chr 'X') (hempty : digitRun 16 q = []) :
    LongestAt base s (ws.length + sign.length + 1) 0 := by
  have hzero : Digits0x base [] [chr '0'] := by
    refine ⟨fun h => absurd rfl h, List.cons_ne_nil _ _, fun c hc => ?_⟩
    rw [List.mem_singleton.mp hc]
    rcases hbase with rfl | rfl
    · decide
    · decide
  constructor
  · refine (numberAt_iff base hs hws hsign hp).mpr ⟨[], [chr '0'], x :: q, rfl, hzero, rfl, ?_⟩
    rw [signedNumber]
    rcases hbase with rfl | rfl
    · split <;> rfl
    · split <;> rfl
  · intro m w hm
    obtain ⟨pre, ds, rest, hsplit, hdigits, hm, -⟩ := (numberAt_iff base hs hws hsign hp).mp hm
    have hone := ((best_hex hbase hx q).none pre ds rest hsplit hdigits hempty).2
    omega

/-- **`strtol`** gives the longest number at the beginning of every string, and nothing when there is none, exactly when
that is not a prefix `0x` without a digit behind it. -/
theorem strtol_iff (base : ℕ) (s : List UInt8) : ParsesLongest base s ↔ ¬BarePrefix base s := by
  obtain ⟨ws, sign, p, hs, hws, hsign, hp⟩ := exists_start s
  obtain ⟨pre, b, q, hbest, hpre⟩ := exists_best base p
  have hcode := strtol_eq hp hbest
  have hnumber := fun n v => numberAt_iff base (n := n) (v := v) hs hws hsign hp
  have hlen : s.length = ws.length + sign.length + pre.length + q.length := by
    rw [hs, hbest.split]
    simp only [List.length_append]
    omega
  have hqlen := length_digitRun b q
  rw [barePrefix_iff hs hws hsign hp hbest hpre]
  constructor
  · rintro hmeets ⟨hne, hempty⟩
    rcases hpre with hpre | ⟨hhex, rfl, x, rfl, hx⟩
    · exact absurd hpre hne
    · obtain rfl : p = chr '0' :: x :: q := hbest.split
      have hret := hmeets.1 _ _ (longestAt_bare hs hws hsign hp hhex hx hempty) ⟨by decide, by decide⟩
      rw [hcode, if_pos hempty] at hret
      have hend : 0 = ws.length + sign.length + 1 := (Prod.mk.inj hret).2
      omega
  · intro hbare
    constructor
    · intro n v ⟨hat, hmax⟩ hfits
      obtain ⟨pre', ds, rest, hsplit, hdigits, hn, hv⟩ := (hnumber n v).mp hat
      have hrun : digitRun b q ≠ [] := fun hempty =>
        hbare ⟨(hbest.none pre' ds rest hsplit hdigits hempty).1, hempty⟩
      obtain ⟨hgood, hsame⟩ := hbest.digits hrun
      have hrest : p = pre ++ (digitRun b q ++ q.dropWhile (isDigitOf b)) := by
        rw [digitRun, List.takeWhile_append_dropWhile]
        exact hbest.split
      have hle := hmax _ _ ((hnumber _ _).mpr ⟨pre, digitRun b q, _, hrest, hgood, rfl, rfl⟩)
      obtain ⟨rfl, rfl⟩ := (hbest.best pre' ds rest hsplit hdigits hrun).2 (by omega)
      rw [hsame, signedNumber] at hv
      rw [hcode, if_neg hrun]
      refine Prod.ext ?_ (by omega)
      show (if decide (sign = [chr '-']) = true then _ else _) = v
      by_cases hminus : sign = [chr '-']
      · rw [if_pos hminus] at hv
        rw [if_pos (decide_eq_true hminus), wrapLong_neg, ← hv, wrapLong_of_fits hfits]
      · rw [if_neg hminus] at hv
        rw [decide_eq_false hminus, if_neg Bool.false_ne_true, ← hv, wrapLong_of_fits hfits]
    · intro hnone
      have hrun : digitRun b q = [] := by
        by_contra hrun
        obtain ⟨hgood, -⟩ := hbest.digits hrun
        have hrest : p = pre ++ (digitRun b q ++ q.dropWhile (isDigitOf b)) := by
          rw [digitRun, List.takeWhile_append_dropWhile]
          exact hbest.split
        exact hnone ⟨_, _, (hnumber _ _).mpr ⟨pre, digitRun b q, _, hrest, hgood, rfl, rfl⟩⟩
      rw [hcode, if_pos hrun, hrun]
      have hzero : wrapLong ((numeralValue b 0 [] : ℕ) : ℤ) = 0 := by
        show wrapLong ((0 : ℕ) : ℤ) = 0
        decide
      rw [hzero]
      split <;> rfl

example : strtol [chr ' ', chr '-', chr '0', chr 'x', chr '1', chr 'f', chr 'g'] 0 = (-31, 6) := by decide

/-- Of `"0x"`, `strtol` does not take the 0. -/
theorem not_parsesLongest_bare : strtol [chr '0', chr 'x'] 16 = (0, 0) ∧ ¬ParsesLongest 16 [chr '0', chr 'x'] := by
  refine ⟨by decide, fun hmeets => ?_⟩
  have hlongest : LongestAt 16 [chr '0', chr 'x'] 1 0 :=
    longestAt_bare (rfl : [chr '0', chr 'x'] = [] ++ ([] ++ [chr '0', chr 'x'])) (fun c hc => absurd hc List.not_mem_nil)
      (.inl rfl) rfl (.inr rfl) (.inl rfl) rfl
  have hret := hmeets.1 1 0 hlongest ⟨by decide, by decide⟩
  exact absurd hret (by decide)

end LizardOs.User
