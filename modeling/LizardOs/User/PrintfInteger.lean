import LizardOs.User.PrintfDirective
import Mathlib.Data.Nat.Digits.Defs
import Mathlib.Tactic.Ring

/-!
# The layout of integers

The field of an integer conversion: sign or prefix, digits to the precision, and the whole to the width.  `vfmt` lays it
out so unless the flag `0` comes with a precision, in which case it does not pad at all (`integer_layout_iff`).
-/

namespace LizardOs.User

open LizardOs.Lib

variable {base v n : ℕ} {upper left zero : Bool} {width prec : ℤ} {lead num : List UInt8} {f : Flags}

/-! ### Numerals -/

/-- The numeral of a number. -/
def numeral (base : ℕ) (upper : Bool) (v : ℕ) : List UInt8 :=
  if v = 0 then [chr '0'] else ((Nat.digits base v).map (digs upper)).reverse

theorem digitsRev_eq (hbase : 2 ≤ base) (hv : v ≠ 0) (hn : v < base ^ n) : digitsRev base n v = Nat.digits base v := by
  induction n generalizing v with
  | zero => exact absurd (Nat.lt_one_iff.mp hn) hv
  | succ n ih =>
    rw [digitsRev, Nat.digits_def' hbase (Nat.pos_of_ne_zero hv)]
    by_cases hlast : v / base = 0
    · rw [if_pos hlast, hlast, Nat.digits_zero]
    · rw [if_neg hlast, ih hlast]
      rw [pow_succ] at hn
      exact Nat.div_lt_of_lt_mul (by rwa [Nat.mul_comm])

theorem uToStr_eq (hbase : 4 ≤ base) (hv : v < 2 ^ 64) : uToStr v base upper = numeral base upper v := by
  rw [uToStr, numeral]
  by_cases hzero : v = 0
  · rw [if_pos hzero, hzero, digitsRev, Nat.zero_mod, Nat.zero_div, if_pos rfl]
    rfl
  · rw [if_neg hzero, digitsRev_eq (by omega) hzero]
    have hpow : 4 ^ 32 ≤ base ^ 32 := Nat.pow_le_pow_left hbase 32
    omega

theorem digitsRev_length_le (base n v : ℕ) : (digitsRev base n v).length ≤ n := by
  induction n generalizing v with
  | zero => exact le_rfl
  | succ n ih =>
    rw [digitsRev, List.length_cons]
    split
    · exact Nat.succ_le_succ (Nat.zero_le n)
    · exact Nat.succ_le_succ (ih _)

theorem uToStr_length_le (v base : ℕ) (upper : Bool) : (uToStr v base upper).length ≤ 32 := by
  rw [uToStr, List.length_reverse, List.length_map]
  exact digitsRev_length_le base 32 v

/-- The value of a digit. -/
def digitValue (c : UInt8) : ℕ :=
  if isdigit c = true then c.toNat - 48 else if c < chr 'a' then c.toNat - 65 + 10 else c.toNat - 97 + 10

/-- The number that digits write, behind the number `w`. -/
def numeralValue (base w : ℕ) (l : List UInt8) : ℕ := l.foldl (fun w c => w * base + digitValue c) w

theorem digitValue_digs (upper : Bool) {d : ℕ} (hd : d < 16) : digitValue (digs upper d) = d :=
  (by decide : ∀ upper : Bool, ∀ d : Fin 16, digitValue (digs upper d) = d) upper ⟨d, hd⟩

/-- A numeral reads back. -/
theorem numeralValue_numeral (hbase : 2 ≤ base) (h16 : base ≤ 16) (upper : Bool) (v : ℕ) :
    numeralValue base 0 (numeral base upper v) = v := by
  rw [numeral]
  by_cases hzero : v = 0
  · rw [if_pos hzero, hzero]
    show 0 * base + digitValue (chr '0') = 0
    rw [Nat.zero_mul]
    decide
  · have hdigits : ∀ l : List ℕ, (∀ d ∈ l, d < 16) →
        numeralValue base 0 (l.map (digs upper)).reverse = Nat.ofDigits base l := by
      intro l hl
      induction l with
      | nil => rfl
      | cons d l ih =>
        rw [List.map_cons, List.reverse_cons, numeralValue, List.foldl_append, Nat.ofDigits_cons]
        show numeralValue base 0 (l.map (digs upper)).reverse * base + digitValue (digs upper d) = _
        rw [ih fun d hd => hl d (List.mem_cons_of_mem _ hd), digitValue_digs upper (hl d List.mem_cons_self), Nat.mul_comm,
          Nat.add_comm]
    rw [if_neg hzero, hdigits _ fun d hd => (Nat.digits_lt_base hbase hd).trans_le h16, Nat.ofDigits_digits]

theorem isdigit_numeral (v : ℕ) : ∀ c ∈ numeral 10 upper v, isdigit c = true := by
  intro c hc
  rw [numeral] at hc
  split at hc
  · rw [List.mem_singleton.mp hc]
    decide
  · rw [List.mem_reverse, List.mem_map] at hc
    obtain ⟨d, hd, rfl⟩ := hc
    have hlt : d < 10 := Nat.digits_lt_base (by decide) hd
    exact (by decide : ∀ upper : Bool, ∀ d : Fin 10, isdigit (digs upper d) = true) upper ⟨d, hlt⟩

/-! ### The field -/

/-- The sign. -/
def signText (f : Flags) (v : ℤ) : List UInt8 :=
  if v < 0 then [chr '-'] else if f.plus then [chr '+'] else if f.space then [chr ' '] else []

/-- What both integer branches of `vfmt` put. -/
def fieldText (left zero : Bool) (width prec : ℤ) (lead num : List UInt8) : List UInt8 :=
  let zpad := if 0 ≤ prec ∧ (num.length : ℤ) < prec then prec - num.length else 0
  let body := int32 (num.length + zpad + lead.length)
  let wpad := if body < width then int32 (width - body) else 0
  (if !left && !zero then List.replicate wpad.toNat (chr ' ') else []) ++ lead ++
    (if !left && zero && decide (prec < 0) then List.replicate wpad.toNat (chr '0') else []) ++
    List.replicate zpad.toNat (chr '0') ++ num ++ if left then List.replicate wpad.toNat (chr ' ') else []

theorem signedText_eq (f : Flags) (width prec v : ℤ) :
    signedText f width prec v = fieldText f.left f.zero width prec (signText f v) (uToStr v.natAbs 10 false) := by
  have hmag : (if v < 0 then (-(v + 1)).toNat + 1 else v.toNat) = v.natAbs := by
    split
    · omega
    · omega
  have hminus : chr '-' ≠ 0 := by decide
  have hplus : chr '+' ≠ 0 := by decide
  rw [signedText, fieldText, signText, hmag]
  by_cases hneg : v < 0
  · simp only [if_pos hneg, if_pos hminus]
    rfl
  · by_cases hp : f.plus = true
    · simp only [if_neg hneg, hp, if_true, if_pos hplus]
      rfl
    · by_cases hs : f.space = true
      · simp only [if_neg hneg, hp, hs, if_true]
        rfl
      · simp only [if_neg hneg, hp, hs, ne_eq]
        rfl

theorem unsignedText_eq (conv : UInt8) (f : Flags) (width prec : ℤ) (v : ℕ) :
    unsignedText conv f width prec v =
      fieldText f.left f.zero width prec (prefixText conv f v) (uToStr v (baseOf conv) (conv = chr 'X')) := rfl

/-! ### The layout -/

/-- A precision, which is none when it is negative. -/
def precOf (prec : ℤ) : Option ℕ := if prec < 0 then none else some prec.toNat

/-- The layout of C: sign or prefix, then digits with zeros in front up to the precision, and the whole field padded up to
the width. -/
def layout (left zero : Bool) (width : ℕ) (prec : Option ℕ) (lead num : List UInt8) : List UInt8 :=
  let body := List.replicate (prec.getD 0 - num.length) (chr '0') ++ num
  let pad := width - (lead.length + body.length)
  if left then lead ++ body ++ List.replicate pad (chr ' ')
  else if zero && prec.isNone then lead ++ List.replicate pad (chr '0') ++ body
  else List.replicate pad (chr ' ') ++ (lead ++ body)

/-- How long sign or prefix and digits are. -/
def bodyLength (prec : Option ℕ) (lead num : List UInt8) : ℕ := lead.length + max num.length (prec.getD 0)

/-- No field is shorter than its width. -/
theorem layout_length (left zero : Bool) (width : ℕ) (prec : Option ℕ) (lead num : List UInt8) :
    (layout left zero width prec lead num).length = max width (bodyLength prec lead num) := by
  rw [layout, bodyLength]
  split
  · simp only [List.length_append, List.length_replicate]
    omega
  · split
    · simp only [List.length_append, List.length_replicate]
      omega
    · simp only [List.length_append, List.length_replicate]
      omega

theorem int32_small {x : ℤ} (hlo : -2 ^ 31 ≤ x) (hhi : x < 2 ^ 31) : int32 x = x := by
  rw [int32]
  exact Int.bmod_eq_of_le (by omega) (by omega)

theorem int32_wrap {x : ℤ} (hlo : 2 ^ 31 ≤ x) (hhi : x < 2 ^ 32) : int32 x = x - 2 ^ 32 := by
  rw [int32, Int.bmod]
  rw [Int.emod_eq_of_lt (by omega) (by omega), if_neg (by omega)]
  norm_num

/-- The padding that the code computes is the missing width, unless a difference of more than 2^31 wraps around. -/
theorem wpad_eq {w b : ℕ} (hw : w < 2 ^ 31) (hb : b < 2 ^ 31 + 2) :
    (if int32 b < (w : ℤ) then int32 (w - int32 b) else 0).toNat = if w + 2 ^ 31 < b then w + 2 ^ 32 - b else w - b := by
  by_cases hsmall : b < 2 ^ 31
  · rw [int32_natCast hsmall, if_neg (show ¬w + 2 ^ 31 < b by omega)]
    by_cases hless : (b : ℤ) < w
    · rw [if_pos hless, int32_small (by omega) (by omega)]
      omega
    · rw [if_neg hless]
      omega
  · have hwrap : int32 b = (b : ℤ) - 2 ^ 32 := int32_wrap (by omega) (by omega)
    rw [hwrap, if_pos (by omega)]
    by_cases hbig : w + 2 ^ 31 < b
    · rw [if_pos hbig, int32_small (by omega) (by omega)]
      omega
    · rw [if_neg hbig, int32_wrap (by omega) (by omega)]
      omega

/-- The conditions under which the code lays a field out as C does: the flag `0` and a precision without `-` leave nothing
to pad, and the padding does not wrap around. -/
structure Padded (left zero : Bool) (width : ℕ) (prec : Option ℕ) (lead num : List UInt8) : Prop where
  zeros : zero = true → left = false → prec.isSome = true → width ≤ bodyLength prec lead num
  wrap : left = true ∨ zero = false → bodyLength prec lead num ≤ width + 2 ^ 31

theorem fieldText_iff (hw0 : 0 ≤ width) (hw : width < 2 ^ 31) (hp : prec < 2 ^ 31) (hnum : num.length ≤ 32)
    (hlead : lead.length ≤ 2) :
    fieldText left zero width prec lead num = layout left zero width.toNat (precOf prec) lead num ↔
      Padded left zero width.toNat (precOf prec) lead num := by
  obtain ⟨w, rfl⟩ : ∃ w : ℕ, width = w := ⟨width.toNat, by omega⟩
  have hzpad : (if 0 ≤ prec ∧ (num.length : ℤ) < prec then prec - num.length else 0) =
      ((precOf prec).getD 0 - num.length : ℕ) := by
    rw [precOf]
    by_cases hneg : prec < 0
    · rw [if_pos hneg, if_neg (by omega), Option.getD_none]
      omega
    · rw [if_neg hneg, Option.getD_some]
      split
      · omega
      · omega
  have hsum : (num.length : ℤ) + ((precOf prec).getD 0 - num.length : ℕ) + lead.length =
      (bodyLength (precOf prec) lead num : ℕ) := by
    rw [bodyLength]
    omega
  have hbound : bodyLength (precOf prec) lead num < 2 ^ 31 + 2 := by
    rw [bodyLength, precOf]
    split
    · rw [Option.getD_none]
      omega
    · rw [Option.getD_some]
      omega
  have hsome : (precOf prec).isSome = !decide (prec < 0) := by
    rw [precOf]
    by_cases hneg : prec < 0
    · rw [if_pos hneg, decide_eq_true hneg]
      rfl
    · rw [if_neg hneg, decide_eq_false hneg]
      rfl
  set b := bodyLength (precOf prec) lead num with hb
  have hbody : (List.replicate ((precOf prec).getD 0 - num.length) (chr '0') ++ num).length + lead.length = b := by
    rw [hb, bodyLength, List.length_append, List.length_replicate]
    omega
  have hwpad := wpad_eq (w := w) (b := b) (by omega) hbound
  have hpadLayout : w - (lead.length + (List.replicate ((precOf prec).getD 0 - num.length) (chr '0') ++ num).length) =
      w - b := by omega
  have htext : fieldText left zero w prec lead num =
      (if !left && !zero then List.replicate (if w + 2 ^ 31 < b then w + 2 ^ 32 - b else w - b) (chr ' ') else []) ++
        lead ++
        (if !left && zero && decide (prec < 0) then
          List.replicate (if w + 2 ^ 31 < b then w + 2 ^ 32 - b else w - b) (chr '0') else []) ++
        List.replicate ((precOf prec).getD 0 - num.length) (chr '0') ++ num ++
        if left then List.replicate (if w + 2 ^ 31 < b then w + 2 ^ 32 - b else w - b) (chr ' ') else [] := by
    rw [fieldText]
    simp only [hzpad, hsum, hwpad, Int.toNat_natCast]
  have hlength := layout_length left zero w (precOf prec) lead num
  rw [← hb] at hlength
  rw [Int.toNat_natCast, htext]
  by_cases hbig : w + 2 ^ 31 < b
  · -- the precision alone is longer than the width
    have hprec : decide (prec < 0) = false := by
      rw [decide_eq_false_iff_not]
      intro hneg
      rw [hb, bodyLength, precOf, if_pos hneg, Option.getD_none] at hbig
      omega
    rw [if_pos hbig, hprec]
    constructor
    · intro heq
      have hlen := congrArg List.length heq
      rw [hlength] at hlen
      refine ⟨fun _ _ _ => by omega, fun hcase => ?_⟩
      exfalso
      cases left with
      | true =>
        simp [List.length_append] at hlen
        omega
      | false =>
        have hzero : zero = false := hcase.resolve_left (by decide)
        rw [hzero] at hlen
        simp [List.length_append] at hlen
        omega
    · intro hpadded
      have hcase : left = false ∧ zero = true := by
        have hwrap := hpadded.wrap
        cases left with
        | true => exact absurd (hwrap (.inl rfl)) (by omega)
        | false =>
          cases zero with
          | true => exact ⟨rfl, rfl⟩
          | false => exact absurd (hwrap (.inr rfl)) (by omega)
      have hnone : (precOf prec).isNone = false := by
        rw [← Option.not_isSome, hsome, hprec]
        rfl
      have hzero : w - b = 0 := by omega
      rw [layout]
      simp only [hpadLayout, hcase.1, hcase.2, hnone, hzero]
      simp
  · rw [if_neg hbig]
    have hwrap : left = true ∨ zero = false → b ≤ w + 2 ^ 31 := fun _ => by omega
    cases left with
    | true =>
      refine iff_of_true ?_ ⟨fun _ h => absurd h (by decide), hwrap⟩
      rw [layout]
      simp only [hpadLayout]
      simp
    | false =>
      cases zero with
      | false =>
        refine iff_of_true ?_ ⟨fun h => absurd h (by decide), hwrap⟩
        rw [layout]
        simp only [hpadLayout]
        simp
      | true =>
        by_cases hneg : prec < 0
        · have hnone : (precOf prec).isNone = true := by
            rw [← Option.not_isSome, hsome, decide_eq_true hneg]
            rfl
          refine iff_of_true ?_ ⟨fun _ _ h => ?_, hwrap⟩
          · rw [layout]
            simp only [hpadLayout, hnone, decide_eq_true hneg]
            simp [← List.append_assoc]
          · rw [hsome, decide_eq_true hneg] at h
            cases h
        · have hnone : (precOf prec).isNone = false := by
            rw [← Option.not_isSome, hsome, decide_eq_false hneg]
            rfl
          constructor
          · intro heq
            have hlen := congrArg List.length heq
            rw [hlength, decide_eq_false hneg] at hlen
            simp [List.length_append] at hlen
            exact ⟨fun _ _ _ => by omega, hwrap⟩
          · intro hpadded
            have hfits := hpadded.zeros rfl rfl (by rw [hsome, decide_eq_false hneg]; rfl)
            have hzero : w - b = 0 := by omega
            rw [layout]
            simp only [hpadLayout, hnone, hzero, decide_eq_false hneg]
            simp

/-! ### Directives -/

namespace IntDirective

variable (d : IntDirective) (args : ℕ → UInt64) (ap : ℕ)

/-- The number without its sign. -/
def magnitude : ℕ :=
  if d.conv.signed then (argSigned args d.long (d.argAt ap)).natAbs else argUnsigned args d.long (d.argAt ap)

/-- Sign or prefix. -/
def leadText : List UInt8 :=
  if d.conv.signed then signText d.flagSet (argSigned args d.long (d.argAt ap))
  else prefixText d.conv.code d.flagSet (argUnsigned args d.long (d.argAt ap))

/-- The digits of the number. -/
def digitText : List UInt8 :=
  numeral (if d.conv.signed then 10 else baseOf d.conv.code) (d.conv.code = chr 'X') (d.magnitude args ap)

/-- The field, laid out with the digits of the number. -/
def field : List UInt8 :=
  layout d.flagSet.left d.flagSet.zero (d.widthValue args ap).toNat (precOf (d.precValue args ap)) (d.leadText args ap)
    (d.digitText args ap)

/-- The field of C, where 0 with the precision 0 has no digits. -/
def cField : List UInt8 :=
  layout d.flagSet.left d.flagSet.zero (d.widthValue args ap).toNat (precOf (d.precValue args ap)) (d.leadText args ap)
    (if d.magnitude args ap = 0 ∧ d.precValue args ap = 0 then [] else d.digitText args ap)

/-- When the field is padded as it should be. -/
def IsPadded : Prop :=
  Padded d.flagSet.left d.flagSet.zero (d.widthValue args ap).toNat (precOf (d.precValue args ap)) (d.leadText args ap)
    (d.digitText args ap)

end IntDirective

section

variable {d : IntDirective} {args : ℕ → UInt64} {ap : ℕ}

theorem int32_bounds (x : ℤ) : -2 ^ 31 ≤ int32 x ∧ int32 x < 2 ^ 31 := by
  have hlo := Int.le_bmod (x := x) (m := 2 ^ 32) (by decide)
  have hhi := Int.bmod_lt (x := x) (m := 2 ^ 32) (by decide)
  rw [int32]
  exact ⟨by omega, by omega⟩

theorem amount_value_lt {a : Amount} (hfits : a.Fits) : a.value args ap < 2 ^ 31 := by
  cases a with
  | star =>
    show argInt args ap < 2 ^ 31
    rw [argInt]
    exact (int32_bounds _).2
  | digits ds =>
    have hlt : digitsValue 0 ds < 2 ^ 31 := hfits
    show ((digitsValue 0 ds : ℕ) : ℤ) < 2 ^ 31
    omega

theorem precValue_lt (d : IntDirective) : d.precValue args ap < 2 ^ 31 := by
  rw [IntDirective.precValue]
  cases hp : d.prec with
  | none =>
    show (-1 : ℤ) < 2 ^ 31
    decide
  | some p =>
    have hlt : p.value args (ap + d.width.slots) < 2 ^ 31 := amount_value_lt (d.precFits p hp)
    show (if p.value args (ap + d.width.slots) < 0 then -1 else p.value args (ap + d.width.slots)) < 2 ^ 31
    split
    · decide
    · exact hlt

theorem magnitude_lt (d : IntDirective) : d.magnitude args ap < 2 ^ 64 := by
  rw [IntDirective.magnitude]
  have hword := (args (d.argAt ap)).toNat_lt
  split
  · rw [argSigned]
    split
    · have hbounds := int32_bounds (args (d.argAt ap)).toNat
      rw [argInt]
      omega
    · have hlo := Int.le_bmod (x := ((args (d.argAt ap)).toNat : ℤ)) (m := 2 ^ 64) (by decide)
      have hhi := Int.bmod_lt (x := ((args (d.argAt ap)).toNat : ℤ)) (m := 2 ^ 64) (by decide)
      omega
  · rw [argUnsigned]
    split
    · omega
    · exact hword

theorem leadText_length_le (d : IntDirective) : (d.leadText args ap).length ≤ 2 := by
  rw [IntDirective.leadText]
  split
  · rw [signText]
    split
    · exact Nat.le_succ 1
    · split
      · exact Nat.le_succ 1
      · split
        · exact Nat.le_succ 1
        · exact Nat.zero_le 2
  · rw [prefixText]
    split
    · split
      · exact le_rfl
      · exact le_rfl
    · exact Nat.zero_le 2

theorem digitText_eq (d : IntDirective) : d.digitText args ap =
    uToStr (d.magnitude args ap) (if d.conv.signed then 10 else baseOf d.conv.code) (d.conv.code = chr 'X') := by
  refine (uToStr_eq ?_ (magnitude_lt d)).symm
  split
  · decide
  · rw [baseOf]
    split
    · decide
    · split
      · decide
      · decide

/-- The text of a directive is one field. -/
theorem output_eq (d : IntDirective) : d.output args ap =
    fieldText d.flagSet.left d.flagSet.zero (d.widthValue args ap) (d.precValue args ap) (d.leadText args ap)
      (d.digitText args ap) := by
  rw [digitText_eq, IntDirective.output, IntDirective.leadText, IntDirective.magnitude]
  by_cases hsigned : d.conv.signed = true
  · have hupper : decide (d.conv.code = chr 'X') = false := by
      cases hconv : d.conv with
      | d => rfl
      | i => rfl
      | u => rw [hconv] at hsigned; cases hsigned
      | o => rw [hconv] at hsigned; cases hsigned
      | x => rw [hconv] at hsigned; cases hsigned
      | X => rw [hconv] at hsigned; cases hsigned
    simp only [if_pos hsigned, hupper, signedText_eq]
  · simp only [if_neg hsigned, unsignedText_eq]

theorem output_eq_field_iff (d : IntDirective) (hwidth : 0 ≤ d.widthValue args ap) :
    d.output args ap = d.field args ap ↔ d.IsPadded args ap := by
  rw [output_eq]
  refine fieldText_iff hwidth (amount_value_lt d.widthFits) (precValue_lt d) ?_ (leadText_length_le d)
  rw [digitText_eq]
  exact uToStr_length_le ..

/-- No character of a sign or of a prefix of 0 is a zero, nor is a space. -/
theorem zero_not_mem_leadText (d : IntDirective) (hzero : d.magnitude args ap = 0) : chr '0' ∉ d.leadText args ap := by
  rw [IntDirective.magnitude] at hzero
  rw [IntDirective.leadText]
  by_cases hsigned : d.conv.signed = true
  · rw [if_pos hsigned, signText]
    split
    · decide
    · split
      · decide
      · split
        · decide
        · exact List.not_mem_nil
  · rw [if_neg hsigned] at hzero
    rw [if_neg hsigned, prefixText, hzero, if_neg fun h => h.2.2 rfl]
    exact List.not_mem_nil

/-- A number 0 is written with a digit, with the precision 0 also. -/
theorem output_ne_cField (d : IntDirective) (hzero : d.magnitude args ap = 0) (hprec : d.precValue args ap = 0) :
    d.output args ap ≠ d.cField args ap := by
  intro heq
  have hdigit : chr '0' ∈ d.output args ap := by
    rw [output_eq, fieldText]
    refine List.mem_append_left _ (List.mem_append_right _ ?_)
    rw [IntDirective.digitText, hzero, numeral, if_pos rfl]
    exact List.mem_singleton.mpr rfl
  have hlead := zero_not_mem_leadText d hzero
  have hspace : chr '0' ≠ chr ' ' := by decide
  have hnone : (precOf (d.precValue args ap)).isNone = false := by
    rw [hprec]
    rfl
  have hgetD : (precOf (d.precValue args ap)).getD 0 = 0 := by
    rw [hprec]
    rfl
  rw [heq, IntDirective.cField, if_pos ⟨hzero, hprec⟩, layout, hnone, hgetD, Bool.and_false] at hdigit
  simp only [Nat.zero_sub, List.replicate_zero, List.append_nil, Bool.false_eq_true, if_false] at hdigit
  split at hdigit
  · rcases List.mem_append.mp hdigit with h | h
    · exact hlead h
    · exact hspace (List.eq_of_mem_replicate h)
  · rcases List.mem_append.mp hdigit with h | h
    · exact hspace (List.eq_of_mem_replicate h)
    · exact hlead h

/-- The same for the field of C, which has no digits for 0 with the precision 0. -/
theorem output_eq_cField_iff (d : IntDirective) (hwidth : 0 ≤ d.widthValue args ap) :
    d.output args ap = d.cField args ap ↔
      d.IsPadded args ap ∧ ¬(d.magnitude args ap = 0 ∧ d.precValue args ap = 0) := by
  by_cases hempty : d.magnitude args ap = 0 ∧ d.precValue args ap = 0
  · exact iff_of_false (output_ne_cField d hempty.1 hempty.2) fun h => h.2 hempty
  · have hsame : d.cField args ap = d.field args ap := by
      rw [IntDirective.cField, if_neg hempty, IntDirective.field]
    rw [hsame, output_eq_field_iff d hwidth, and_iff_left hempty]

/-- What a stream has received determines what was put. -/
theorem streams_puts_iff {s : Sink} {fd : ℤ} {o w w' : List UInt8} (hs : Streams s fd o) (hfd : 0 ≤ fd) :
    Streams (s.puts w) fd (o ++ w') ↔ w = w' := by
  have hputs := hs.puts hfd w
  constructor
  · intro h
    exact List.append_cancel_left (hputs.bytes.symm.trans h.bytes)
  · rintro rfl
    exact hputs

/-- **The layout of integers.**  At every place of a format and of the arguments, `vfmt` passes a directive over and lays
its field out as C does, exactly when it pads it: unless the flag `0` comes without `-` and with a precision and the digits
do not fill the width.  Of the number 0 with the precision 0 it always writes a digit. -/
theorem integer_layout_iff (d : IntDirective) {st : Fmt} {fd : ℤ} {o : List UInt8} (rest : List UInt8)
    (hst : Streams st.sink fd o) (hfd : 0 ≤ fd) (hwidth : 0 ≤ d.widthValue args st.ap) :
    (directive args st (d.text ++ rest)).2 = rest ∧
      (Streams (directive args st (d.text ++ rest)).1.sink fd (o ++ d.field args st.ap) ↔ d.IsPadded args st.ap) ∧
      (Streams (directive args st (d.text ++ rest)).1.sink fd (o ++ d.cField args st.ap) ↔
        d.IsPadded args st.ap ∧ ¬(d.magnitude args st.ap = 0 ∧ d.precValue args st.ap = 0)) := by
  rw [directive_text d st rest hwidth]
  refine ⟨rfl, ?_, ?_⟩
  · exact (streams_puts_iff hst hfd).trans (output_eq_field_iff d hwidth)
  · exact (streams_puts_iff hst hfd).trans (output_eq_cField_iff d hwidth)

/-- `%-8.3d`. -/
def leftDirective : IntDirective where
  flags := [.minus]
  width := .digits [8]
  prec := some (.digits [3])
  mods := []
  conv := .d
  widthFits := by decide
  widthStarts := by decide
  precFits := by
    rintro p ⟨⟩
    decide

/-- The state in which `printf` begins. -/
def printfStart : Fmt := ⟨⟨none, 0, 0, 1, fun _ => 0, 0, []⟩, fun _ => 0, 0⟩

theorem streams_printfStart : Streams printfStart.sink 1 [] :=
  ⟨rfl, rfl, Nat.zero_le _, fun _ hx => absurd hx List.not_mem_nil, rfl⟩

theorem integer_layout_iff_left :
    (directive (fun _ => 7) printfStart (leftDirective.text ++ [chr '.'])).2 = [chr '.'] ∧
      (Streams (directive (fun _ => 7) printfStart (leftDirective.text ++ [chr '.'])).1.sink 1
        ([] ++ leftDirective.field (fun _ => 7) printfStart.ap) ↔ leftDirective.IsPadded (fun _ => 7) printfStart.ap) ∧
      (Streams (directive (fun _ => 7) printfStart (leftDirective.text ++ [chr '.'])).1.sink 1
        ([] ++ leftDirective.cField (fun _ => 7) printfStart.ap) ↔
        leftDirective.IsPadded (fun _ => 7) printfStart.ap ∧
          ¬(leftDirective.magnitude (fun _ => 7) printfStart.ap = 0 ∧
            leftDirective.precValue (fun _ => 7) printfStart.ap = 0)) :=
  integer_layout_iff leftDirective [chr '.'] streams_printfStart (by decide) (by decide)

/-- `%05.2d`. -/
def zeroDirective : IntDirective where
  flags := [.zero]
  width := .digits [5]
  prec := some (.digits [2])
  mods := []
  conv := .d
  widthFits := by decide
  widthStarts := by decide
  precFits := by
    rintro p ⟨⟩
    decide

/-- `printf("%05.2d", 7)` prints two characters, not five. -/
theorem not_field_zeroDirective :
    printed (fun _ => 7) (fun _ => 0) (chr '%' :: zeroDirective.text) = [chr '0', chr '7'] ∧
      zeroDirective.field (fun _ => 7) 0 = [chr ' ', chr ' ', chr ' ', chr '0', chr '7'] ∧
      zeroDirective.cField (fun _ => 7) 0 = [chr ' ', chr ' ', chr ' ', chr '0', chr '7'] := by
  refine ⟨by decide, ?_, ?_⟩
  · rw [IntDirective.field, digitText_eq]
    decide
  · rw [IntDirective.cField, digitText_eq]
    decide

end

end LizardOs.User
