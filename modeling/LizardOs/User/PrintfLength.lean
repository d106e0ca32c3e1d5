import LizardOs.User.PrintfInteger

/-!
# Length modifiers

`vfmt` passes `h`, `z`, `j` and `t` over, so the argument is fetched as one of type `int` or `unsigned`.  What is printed
is the number that the modifier stands for when that is the same number (`length_iff`): the text of a decimal conversion
determines the number.
-/

namespace LizardOs.User

open LizardOs.Lib

variable {left zero : Bool} {width prec : ℤ} {lead num : List UInt8} {f : Flags}

/-! ### Reading a field back -/

/-- The digits of a field are those of the number, behind zeros. -/
theorem filter_fieldText (hlead : ∀ c ∈ lead, isdigit c = false) (hnum : ∀ c ∈ num, isdigit c = true) :
    ∃ k, (fieldText left zero width prec lead num).filter isdigit = List.replicate k (chr '0') ++ num := by
  have hspaces : ∀ n, (List.replicate n (chr ' ')).filter isdigit = [] := fun n =>
    List.filter_eq_nil_iff.mpr fun c hc => by
      rw [List.eq_of_mem_replicate hc]
      decide
  have hzeros : ∀ n, (List.replicate n (chr '0')).filter isdigit = List.replicate n (chr '0') := fun n =>
    List.filter_eq_self.mpr fun c hc => by
      rw [List.eq_of_mem_replicate hc]
      decide
  have hlead' : lead.filter isdigit = [] := List.filter_eq_nil_iff.mpr fun c hc => by
    rw [hlead c hc]
    decide
  have hnum' : num.filter isdigit = num := List.filter_eq_self.mpr hnum
  have hite : ∀ (p : Prop) [Decidable p] (l : List UInt8),
      (if p then l else []).filter isdigit = if p then l.filter isdigit else [] := by
    intro p _ l
    split
    · rfl
    · rfl
  rw [fieldText]
  simp only [List.filter_append, hite, hspaces, hzeros, hlead', hnum', ite_self, List.nil_append, List.append_nil]
  split
  · exact ⟨_, by rw [List.replicate_append_replicate]⟩
  · exact ⟨_, by rw [List.nil_append]⟩

/-- A field has a minus sign where the sign or prefix has one. -/
theorem minus_mem_fieldText (hnum : ∀ c ∈ num, isdigit c = true) :
    chr '-' ∈ fieldText left zero width prec lead num ↔ chr '-' ∈ lead := by
  have hspaces : ∀ n, chr '-' ∉ List.replicate n (chr ' ') := fun n h =>
    absurd (List.eq_of_mem_replicate h) (by decide)
  have hzeros : ∀ n, chr '-' ∉ List.replicate n (chr '0') := fun n h =>
    absurd (List.eq_of_mem_replicate h) (by decide)
  have hnum' : chr '-' ∉ num := fun h => absurd (hnum _ h) (by decide)
  have hite : ∀ (p : Prop) [Decidable p] (l : List UInt8), chr '-' ∉ l → chr '-' ∉ if p then l else [] := by
    intro p _ l hl
    split
    · exact hl
    · exact List.not_mem_nil
  rw [fieldText]
  simp only [List.mem_append]
  constructor
  · rintro (((((h | h) | h) | h) | h) | h)
    · exact absurd h (hite _ _ (hspaces _))
    · exact h
    · exact absurd h (hite _ _ (hzeros _))
    · exact absurd h (hzeros _)
    · exact absurd h hnum'
    · exact absurd h (hite _ _ (hspaces _))
  · intro h
    exact .inl (.inl (.inl (.inl (.inr h))))

theorem numeralValue_zeros (k : ℕ) (l : List UInt8) :
    numeralValue 10 0 (List.replicate k (chr '0') ++ l) = numeralValue 10 0 l := by
  induction k with
  | zero => rfl
  | succ k ih => exact ih

theorem minus_mem_signText (f : Flags) (v : ℤ) : chr '-' ∈ signText f v ↔ v < 0 := by
  rw [signText]
  by_cases hneg : v < 0
  · rw [if_pos hneg]
    exact iff_of_true List.mem_cons_self hneg
  · rw [if_neg hneg]
    refine iff_of_false ?_ hneg
    split
    · decide
    · split
      · decide
      · exact List.not_mem_nil

theorem isdigit_signText (f : Flags) (v : ℤ) : ∀ c ∈ signText f v, isdigit c = false := by
  have hone : ∀ d, isdigit d = false → ∀ c ∈ [d], isdigit c = false := by
    intro d hd c hc
    rw [List.mem_singleton.mp hc]
    exact hd
  rw [signText]
  split
  · exact hone _ (by decide)
  · split
    · exact hone _ (by decide)
    · split
      · exact hone _ (by decide)
      · exact fun c hc => absurd hc List.not_mem_nil

namespace IntDirective

variable (d : IntDirective) (args : ℕ → UInt64) (ap : ℕ)

/-- The field with the decimal representation of `v`. -/
def decimalText (v : ℤ) : List UInt8 :=
  fieldText (d.fieldFlags args ap).left (d.fieldFlags args ap).zero (d.fieldWidth args ap) (d.precValue args ap)
    (if d.conv.signed then signText (d.fieldFlags args ap) v else []) (numeral 10 false v.natAbs)

/-- The number that the code fetches. -/
def fetched : ℤ := if d.conv.signed then argSigned args d.long (d.argAt ap) else argUnsigned args d.long (d.argAt ap)

end IntDirective

section

variable {d : IntDirective} {args : ℕ → UInt64} {ap : ℕ} {v v' : ℤ}

/-- The text determines the number. -/
theorem decimalText_injective (hv : d.conv.signed = false → 0 ≤ v) (hv' : d.conv.signed = false → 0 ≤ v')
    (h : d.decimalText args ap v = d.decimalText args ap v') : v = v' := by
  have hread : ∀ v, ∃ k, (d.decimalText args ap v).filter isdigit =
      List.replicate k (chr '0') ++ numeral 10 false v.natAbs := by
    intro v
    refine filter_fieldText ?_ (isdigit_numeral _)
    split
    · exact isdigit_signText _ _
    · exact fun c hc => absurd hc List.not_mem_nil
  obtain ⟨k, hk⟩ := hread v
  obtain ⟨k', hk'⟩ := hread v'
  have habs : v.natAbs = v'.natAbs := by
    have hvalue := congrArg (numeralValue 10 0) (hk.symm.trans ((congrArg (List.filter isdigit) h).trans hk'))
    rw [numeralValue_zeros, numeralValue_zeros, numeralValue_numeral (by decide) (by decide),
      numeralValue_numeral (by decide) (by decide)] at hvalue
    exact hvalue
  cases hsigned : d.conv.signed with
  | false =>
    have hpos := hv hsigned
    have hpos' := hv' hsigned
    omega
  | true =>
    have hminus : ∀ v, chr '-' ∈ d.decimalText args ap v ↔ v < 0 := by
      intro v
      rw [IntDirective.decimalText, minus_mem_fieldText (isdigit_numeral _), hsigned, if_pos rfl, minus_mem_signText]
    have hneg : v < 0 ↔ v' < 0 := by
      rw [← hminus v, h, hminus v']
    omega

/-- The digits of what is fetched, as the code makes them. -/
theorem uToStr_fetched (d : IntDirective) :
    uToStr (d.fetched args ap).natAbs 10 false = numeral 10 false (d.fetched args ap).natAbs := by
  refine uToStr_eq (by decide) ?_
  have hlt : d.magnitude args ap < 2 ^ 64 := magnitude_lt d
  rw [IntDirective.magnitude] at hlt
  rw [IntDirective.fetched]
  split
  · rwa [if_pos ‹_›] at hlt
  · rwa [if_neg ‹_›] at hlt

/-- A decimal conversion puts the decimal representation of the number it fetches. -/
theorem put_decimal (hconv : d.conv = .d ∨ d.conv = .i ∨ d.conv = .u) :
    d.put args ap = d.decimalText args ap (d.fetched args ap) := by
  rw [IntDirective.put, IntDirective.decimalText, ← uToStr_fetched, IntDirective.fetched]
  by_cases hsigned : d.conv.signed = true
  · rw [if_pos hsigned, if_pos hsigned, if_pos hsigned, signedText_eq]
  · have hu : d.conv = .u := by
      rcases hconv with hconv | hconv | hconv
      · exact absurd (by rw [hconv]; rfl) hsigned
      · exact absurd (by rw [hconv]; rfl) hsigned
      · exact hconv
    have hcode : d.conv.code = chr 'u' := by
      rw [hu]
      rfl
    have hprefix : ∀ f n, prefixText (chr 'u') f n = [] := by
      intro f n
      rw [prefixText, if_neg fun h => absurd h.2.1 (by decide)]
    have hbase : baseOf (chr 'u') = 10 := rfl
    have hupper : decide (chr 'u' = chr 'X') = false := by decide
    rw [if_neg hsigned, if_neg hsigned, if_neg hsigned, unsignedText_eq, hcode, hprefix, hbase, hupper,
      Int.natAbs_natCast]

/-! ### What the modifiers stand for -/

/-- The number of the type that the modifier and the conversion name. -/
def LengthMod.wanted (m : LengthMod) (signed : Bool) (word : UInt64) : ℤ :=
  match m, signed with
  | .h, true => Int.bmod word.toNat (2 ^ 16)
  | .h, false => (word.toNat % 2 ^ 16 : ℕ)
  | _, true => Int.bmod word.toNat (2 ^ 64)
  | _, false => word.toNat

/-- The number is one that the code prints as it is: an `int` or `unsigned` for `z`, `j` and `t`, and an argument that is
a `short` already for `h`. -/
def LengthMod.Passes (m : LengthMod) (signed : Bool) (word : UInt64) : Prop :=
  match m, signed with
  | .h, true => -2 ^ 15 ≤ int32 word.toNat ∧ int32 word.toNat < 2 ^ 15
  | .h, false => word.toNat % 2 ^ 32 < 2 ^ 16
  | _, true => -2 ^ 31 ≤ Int.bmod word.toNat (2 ^ 64) ∧ Int.bmod word.toNat (2 ^ 64) < 2 ^ 31
  | _, false => word.toNat < 2 ^ 32

/-- Reducing modulo the smaller of two powers loses a number unless it fits. -/
theorem bmod_eq_iff (x : ℤ) {m n : ℕ} (hn : 0 < n) (hm : 2 ∣ n) (hdvd : n ∣ m) :
    Int.bmod x m = Int.bmod x n ↔ -(n / 2 : ℕ) ≤ Int.bmod x m ∧ Int.bmod x m < (n / 2 : ℕ) := by
  have hlo := Int.le_bmod (x := x) (m := n) hn
  have hhi := Int.bmod_lt (x := x) (m := n) hn
  constructor
  · intro heq
    rw [heq]
    omega
  · intro hrange
    have hbmod : Int.bmod (Int.bmod x m) n = Int.bmod x n := Int.bmod_bmod_of_dvd hdvd
    have hsmall : Int.bmod (Int.bmod x m) n = Int.bmod x m := Int.bmod_eq_of_le (by omega) (by omega)
    rw [← hbmod, hsmall]

/-- An `int` is the number of the word exactly when the number is an `int`. -/
theorem int32_eq_bmod_iff (n : ℕ) :
    int32 n = Int.bmod n (2 ^ 64) ↔ -2 ^ 31 ≤ Int.bmod n (2 ^ 64) ∧ Int.bmod n (2 ^ 64) < 2 ^ 31 := by
  have hwide : Int.bmod n (2 ^ 64) = Int.bmod n (2 ^ 32) ↔
      -2 ^ 31 ≤ Int.bmod n (2 ^ 64) ∧ Int.bmod n (2 ^ 64) < 2 ^ 31 :=
    bmod_eq_iff (n : ℤ) (by decide) (by decide) (by decide)
  rw [int32, eq_comm, hwide]

/-- An `int` is its `short` exactly when it is a `short`. -/
theorem int32_eq_short_iff (n : ℕ) :
    int32 n = Int.bmod n (2 ^ 16) ↔ -2 ^ 15 ≤ int32 n ∧ int32 n < 2 ^ 15 :=
  bmod_eq_iff (n : ℤ) (by decide) (by decide) (by decide)

theorem mod_eq_self_iff (n : ℕ) : ((n % 2 ^ 32 : ℕ) : ℤ) = n ↔ n < 2 ^ 32 := by
  omega

theorem mod_eq_short_iff (n : ℕ) : ((n % 2 ^ 32 : ℕ) : ℤ) = (n % 2 ^ 16 : ℕ) ↔ n % 2 ^ 32 < 2 ^ 16 := by
  omega

theorem LengthMod.wanted_word {m : LengthMod} (hm : m ≠ .h) (word : UInt64) : m.wanted false word = word.toNat := by
  cases m with
  | h => exact absurd rfl hm
  | l => rfl
  | z => rfl
  | j => rfl
  | t => rfl

theorem LengthMod.passes_word {m : LengthMod} (hm : m ≠ .h) (word : UInt64) :
    m.Passes false word ↔ word.toNat < 2 ^ 32 := by
  cases m with
  | h => exact absurd rfl hm
  | l => exact Iff.rfl
  | z => exact Iff.rfl
  | j => exact Iff.rfl
  | t => exact Iff.rfl

theorem LengthMod.wanted_wide {m : LengthMod} (hm : m ≠ .h) (word : UInt64) :
    m.wanted true word = Int.bmod word.toNat (2 ^ 64) := by
  cases m with
  | h => exact absurd rfl hm
  | l => rfl
  | z => rfl
  | j => rfl
  | t => rfl

theorem LengthMod.passes_wide {m : LengthMod} (hm : m ≠ .h) (word : UInt64) :
    m.Passes true word ↔ -2 ^ 31 ≤ Int.bmod word.toNat (2 ^ 64) ∧ Int.bmod word.toNat (2 ^ 64) < 2 ^ 31 := by
  cases m with
  | h => exact absurd rfl hm
  | l => exact Iff.rfl
  | z => exact Iff.rfl
  | j => exact Iff.rfl
  | t => exact Iff.rfl

theorem wanted_eq_iff (m : LengthMod) (signed : Bool) (word : UInt64) :
    (if signed then int32 word.toNat else (word.toNat % 2 ^ 32 : ℕ)) = m.wanted signed word ↔ m.Passes signed word := by
  cases signed with
  | true =>
    rw [if_pos rfl]
    by_cases hm : m = .h
    · rw [hm]
      exact int32_eq_short_iff word.toNat
    · rw [LengthMod.wanted_wide hm, LengthMod.passes_wide hm, int32_eq_bmod_iff]
  | false =>
    rw [if_neg Bool.false_ne_true]
    by_cases hm : m = .h
    · rw [hm]
      exact mod_eq_short_iff word.toNat
    · rw [LengthMod.wanted_word hm, LengthMod.passes_word hm, mod_eq_self_iff]

/-- **Length modifiers.**  At every place of a format and of the arguments, a decimal conversion with `h`, `z`, `j` or `t`
takes one argument, after those of the width and the precision, and prints the number that it stands for exactly when
that fits the type without the modifier. -/
theorem length_iff (d : IntDirective) {m : LengthMod} (hmods : d.mods = [m]) (hm : m ≠ .l)
    (hconv : d.conv = .d ∨ d.conv = .i ∨ d.conv = .u) {st : Fmt} {fd : ℤ} {o : List UInt8} (rest : List UInt8)
    (hst : Streams st.sink fd o) (hfd : 0 ≤ fd) :
    (directive args st (d.text ++ rest)).2 = rest ∧ (directive args st (d.text ++ rest)).1.ap = d.argAt st.ap + 1 ∧
      (Streams (directive args st (d.text ++ rest)).1.sink fd
          (o ++ d.decimalText args st.ap (m.wanted d.conv.signed (args (d.argAt st.ap)))) ↔
        m.Passes d.conv.signed (args (d.argAt st.ap))) := by
  have hlong : d.long = 0 := by
    rw [IntDirective.long, hmods, List.count_singleton, if_neg (by simpa using hm)]
    rfl
  have hfetched : d.fetched args st.ap =
      if d.conv.signed then int32 (args (d.argAt st.ap)).toNat else ((args (d.argAt st.ap)).toNat % 2 ^ 32 : ℕ) := by
    rw [IntDirective.fetched, hlong, argSigned, argUnsigned, if_pos rfl, if_pos rfl, argInt]
  rw [directive_put d st rest]
  refine ⟨rfl, rfl, (streams_puts_iff hst hfd).trans ?_⟩
  rw [put_decimal hconv, ← wanted_eq_iff m d.conv.signed, ← hfetched]
  constructor
  · refine fun h => decimalText_injective (fun hunsigned => ?_) (fun hunsigned => ?_) h
    · rw [hfetched, hunsigned]
      exact Int.natCast_nonneg _
    · rw [hunsigned]
      cases m with
      | h => exact Int.natCast_nonneg _
      | l => exact Int.natCast_nonneg _
      | z => exact Int.natCast_nonneg _
      | j => exact Int.natCast_nonneg _
      | t => exact Int.natCast_nonneg _
  · exact fun h => congrArg _ h

/-- `%6zu`. -/
def sizeDirective : IntDirective where
  flags := []
  width := .digits [6]
  prec := none
  mods := [.z]
  conv := .u
  widthFits := by decide
  widthStarts := by decide
  precFits := Amount.fits_of_none

theorem length_iff_size :
    (directive (fun _ => 4096) printfStart (sizeDirective.text ++ [10])).2 = [10] ∧
      (directive (fun _ => 4096) printfStart (sizeDirective.text ++ [10])).1.ap = sizeDirective.argAt printfStart.ap + 1 ∧
      (Streams (directive (fun _ => 4096) printfStart (sizeDirective.text ++ [10])).1.sink 1
          ([] ++ sizeDirective.decimalText (fun _ => 4096) printfStart.ap
            (LengthMod.z.wanted sizeDirective.conv.signed 4096)) ↔
        LengthMod.z.Passes sizeDirective.conv.signed 4096) :=
  length_iff sizeDirective rfl (by decide) (by decide) [10] streams_printfStart (by decide)

/-- `printf("%6zu", 4294967296)` prints a 0. -/
theorem not_decimal_size :
    printed (fun _ => 4294967296) (fun _ => 0) (chr '%' :: sizeDirective.text) =
        [chr ' ', chr ' ', chr ' ', chr ' ', chr ' ', chr '0'] ∧
      printed (fun _ => 4294967296) (fun _ => 0) (chr '%' :: sizeDirective.text) ≠
        sizeDirective.decimalText (fun _ => 4294967296) 0 (LengthMod.z.wanted sizeDirective.conv.signed 4294967296) := by
  have hprinted : printed (fun _ => 4294967296) (fun _ => 0) (chr '%' :: sizeDirective.text) =
      [chr ' ', chr ' ', chr ' ', chr ' ', chr ' ', chr '0'] := by decide
  have htext : sizeDirective.decimalText (fun _ => 4294967296) 0
      (LengthMod.z.wanted sizeDirective.conv.signed 4294967296) =
        [chr '4', chr '2', chr '9', chr '4', chr '9', chr '6', chr '7', chr '2', chr '9', chr '6'] := by
    rw [IntDirective.decimalText, ← uToStr_eq (by decide) (by decide)]
    decide
  refine ⟨hprinted, ?_⟩
  rw [hprinted, htext]
  decide

end

end LizardOs.User
