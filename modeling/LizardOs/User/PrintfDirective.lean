import LizardOs.User.PrintfSink

/-!
# Directives of integer conversions

The directives that convert an integer, as values: flags, a width, a precision, length modifiers and the conversion.  `text`
is how one is written in a format, and `directive_text` what `vfmt` does when it meets that.
-/

namespace LizardOs.User

open LizardOs.Lib

/-! ### Directives -/

inductive FlagChar where
  | minus | zero | plus | space | hash

namespace FlagChar

def code : FlagChar → UInt8
  | minus => chr '-'
  | zero => chr '0'
  | plus => chr '+'
  | space => chr ' '
  | hash => chr '#'

/-- The flags with one more of them. -/
def set (f : Flags) : FlagChar → Flags
  | minus => { f with left := true }
  | zero => { f with zero := true }
  | plus => { f with plus := true }
  | space => { f with space := true }
  | hash => { f with alt := true }

end FlagChar

/-- A width or a precision: digits, or the next argument. -/
inductive Amount where
  | digits (ds : List (Fin 10))
  | star

/-- The number that digits write. -/
def digitsValue (w : ℕ) (ds : List (Fin 10)) : ℕ := ds.foldl (fun w d => w * 10 + d) w

def digitsText (ds : List (Fin 10)) : List UInt8 := ds.map fun d => digs false d

namespace Amount

def text : Amount → List UInt8
  | digits ds => digitsText ds
  | star => [chr '*']

def value (args : ℕ → UInt64) (ap : ℕ) : Amount → ℤ
  | digits ds => digitsValue 0 ds
  | star => argInt args ap

/-- How many arguments it takes. -/
def slots : Amount → ℕ
  | digits _ => 0
  | star => 1

instance neZero_ten : NeZero 10 := ⟨by decide⟩

/-- The number is an `int`. -/
def Fits : Amount → Prop
  | digits ds => digitsValue 0 ds < 2 ^ 31
  | star => True

/-- It does not begin with the flag `0`. -/
def StartsWidth : Amount → Prop
  | digits ds => ds.head? ≠ some 0
  | star => True

instance : DecidablePred Fits
  | digits ds => inferInstanceAs (Decidable (digitsValue 0 ds < 2 ^ 31))
  | star => .isTrue trivial

instance : DecidablePred StartsWidth
  | digits ds => inferInstanceAs (Decidable (ds.head? ≠ some 0))
  | star => .isTrue trivial

theorem fits_of_none : ∀ p, none = some p → Fits p := by
  rintro p ⟨⟩

end Amount

inductive LengthMod where
  | l | h | z | j | t
  deriving DecidableEq

def LengthMod.code : LengthMod → UInt8
  | l => chr 'l'
  | h => chr 'h'
  | z => chr 'z'
  | j => chr 'j'
  | t => chr 't'

inductive IntConv where
  | d | i | u | o | x | X
  deriving DecidableEq

namespace IntConv

def code : IntConv → UInt8
  | d => chr 'd'
  | i => chr 'i'
  | u => chr 'u'
  | o => chr 'o'
  | x => chr 'x'
  | X => chr 'X'

def signed : IntConv → Bool
  | d => true
  | i => true
  | _ => false

end IntConv

/-- What stands between the `%` and the conversion, with the conversion. -/
structure IntDirective where
  flags : List FlagChar
  width : Amount
  prec : Option Amount
  mods : List LengthMod
  conv : IntConv
  widthFits : width.Fits
  widthStarts : width.StartsWidth
  precFits : ∀ p, prec = some p → p.Fits

namespace IntDirective

variable (d : IntDirective) (args : ℕ → UInt64) (ap : ℕ)

def precText : List UInt8 :=
  match d.prec with
  | none => []
  | some p => chr '.' :: p.text

def text : List UInt8 :=
  d.flags.map FlagChar.code ++ (d.width.text ++ (d.precText ++ (d.mods.map LengthMod.code ++ [d.conv.code])))

/-- The flags that are written. -/
def flagSet : Flags := d.flags.foldl FlagChar.set noFlags

/-- The width. -/
def widthValue : ℤ := d.width.value args ap

/-- The precision, −1 for none. -/
def precValue : ℤ :=
  match d.prec with
  | none => -1
  | some p => if p.value args (ap + d.width.slots) < 0 then -1 else p.value args (ap + d.width.slots)

/-- How many `l` there are, two at most. -/
def long : ℕ := min (d.mods.count .l) 2

/-- Which argument is converted. -/
def argAt : ℕ :=
  ap + d.width.slots +
    match d.prec with
    | none => 0
    | some p => p.slots

/-- The flags, with `-` for a width that is negative. -/
def fieldFlags : Flags := if d.widthValue args ap < 0 then { d.flagSet with left := true } else d.flagSet

/-- The width, without its sign. -/
def fieldWidth : ℤ := if d.widthValue args ap < 0 then int32 (-d.widthValue args ap) else d.widthValue args ap

/-- What `vfmt` puts for it, whatever the width. -/
def put : List UInt8 :=
  if d.conv.signed then
    signedText (d.fieldFlags args ap) (d.fieldWidth args ap) (d.precValue args ap) (argSigned args d.long (d.argAt ap))
  else
    unsignedText d.conv.code (d.fieldFlags args ap) (d.fieldWidth args ap) (d.precValue args ap)
      (argUnsigned args d.long (d.argAt ap))

/-- What it puts for it when the width is not negative. -/
def output : List UInt8 :=
  if d.conv.signed then
    signedText d.flagSet (d.widthValue args ap) (d.precValue args ap) (argSigned args d.long (d.argAt ap))
  else
    unsignedText d.conv.code d.flagSet (d.widthValue args ap) (d.precValue args ap) (argUnsigned args d.long (d.argAt ap))

end IntDirective

/-! ### Reading a directive -/

variable {args : ℕ → UInt64} {ap w : ℕ} {f : Flags} {c : UInt8} {tail fmt : List UInt8}

/-- The characters that end the flags. -/
def isFlag (c : UInt8) : Bool := c == chr '-' || c == chr '0' || c == chr '+' || c == chr ' ' || c == chr '#'

theorem add_eq_none (hc : isFlag c = false) : f.add c = none := by
  simp only [isFlag, Bool.or_eq_false_iff, beq_eq_false_iff_ne] at hc
  obtain ⟨⟨⟨⟨h1, h2⟩, h3⟩, h4⟩, h5⟩ := hc
  rw [Flags.add, if_neg h1, if_neg h2, if_neg h3, if_neg h4, if_neg h5]

/-- The list begins with a character that the predicate excludes. -/
def Begins (p : UInt8 → Bool) (tail : List UInt8) : Prop := ∃ c t, tail = c :: t ∧ p c = false

theorem parseFlags_text (l : List FlagChar) (f : Flags) (htail : Begins isFlag tail) :
    parseFlags (l.map FlagChar.code ++ tail) f = (l.foldl FlagChar.set f, tail) := by
  induction l generalizing f with
  | nil =>
    obtain ⟨c, t, rfl, hc⟩ := htail
    show parseFlags (c :: t) f = (f, c :: t)
    rw [parseFlags, add_eq_none hc]
  | cons a l ih =>
    have hadd : f.add a.code = some (a.set f) := by
      cases a with
      | minus => rfl
      | zero => rfl
      | plus => rfl
      | space => rfl
      | hash => rfl
    show parseFlags (a.code :: (l.map FlagChar.code ++ tail)) f = _
    rw [parseFlags, hadd]
    exact ih (a.set f)

theorem le_digitsValue (w : ℕ) (ds : List (Fin 10)) : w ≤ digitsValue w ds := by
  induction ds generalizing w with
  | nil => exact le_rfl
  | cons d ds ih =>
    have hle := ih (w * 10 + d)
    show w ≤ digitsValue (w * 10 + d) ds
    omega

theorem scanDigits_text (ds : List (Fin 10)) (w : ℕ) (hfits : digitsValue w ds < 2 ^ 31) (htail : Begins isdigit tail) :
    scanDigits (digitsText ds ++ tail) w = ((digitsValue w ds : ℤ), tail) := by
  induction ds generalizing w with
  | nil =>
    obtain ⟨c, t, rfl, hc⟩ := htail
    show scanDigits (c :: t) w = (((w : ℕ) : ℤ), c :: t)
    rw [scanDigits, if_neg (by rw [hc]; decide)]
  | cons d ds ih =>
    have hdigit : isdigit (digs false d) = true := (by decide : ∀ d : Fin 10, isdigit (digs false d) = true) d
    have hvalue : ((digs false d).toNat : ℤ) - (chr '0').toNat = (d : ℕ) :=
      (by decide : ∀ d : Fin 10, ((digs false d).toNat : ℤ) - (chr '0').toNat = (d : ℕ)) d
    have hle : w * 10 + d ≤ digitsValue (w * 10 + d) ds := le_digitsValue _ ds
    have hfits' : digitsValue (w * 10 + d) ds < 2 ^ 31 := hfits
    have hten : int32 ((w : ℤ) * 10) = (w * 10 : ℕ) := by
      rw [← int32_natCast (show w * 10 < 2 ^ 31 by omega)]
      exact congrArg int32 (by omega)
    have hstep : int32 (((w * 10 : ℕ) : ℤ) + (d : ℕ)) = (w * 10 + d : ℕ) := by
      rw [← int32_natCast (show w * 10 + d < 2 ^ 31 by omega)]
      exact congrArg int32 (by omega)
    show scanDigits (digs false d :: (digitsText ds ++ tail)) w = _
    rw [scanDigits, if_pos hdigit, hten, hvalue, hstep]
    exact ih (w * 10 + d) hfits'

theorem scanLength_text (l : List LengthMod) (n : ℕ) (conv : IntConv) (rest : List UInt8) :
    scanLength (l.map LengthMod.code ++ conv.code :: rest) n = (n + l.count .l, conv.code :: rest) := by
  induction l generalizing n with
  | nil =>
    show scanLength (conv.code :: rest) n = (n + 0, conv.code :: rest)
    have hl : conv.code ≠ chr 'l' := by
      cases conv <;> decide
    have hother : ¬(conv.code = chr 'h' ∨ conv.code = chr 'z' ∨ conv.code = chr 'j' ∨ conv.code = chr 't') := by
      cases conv <;> decide
    rw [scanLength, if_neg hl, if_neg hother, Nat.add_zero]
  | cons a l ih =>
    show scanLength (a.code :: (l.map LengthMod.code ++ conv.code :: rest)) n = _
    rw [scanLength]
    cases a with
    | l =>
      rw [if_pos (by decide), ih, List.count_cons_self]
      congr 1
      omega
    | h => rw [if_neg (by decide), if_pos (by decide), ih, List.count_cons_of_ne (by decide)]
    | z => rw [if_neg (by decide), if_pos (by decide), ih, List.count_cons_of_ne (by decide)]
    | j => rw [if_neg (by decide), if_pos (by decide), ih, List.count_cons_of_ne (by decide)]
    | t => rw [if_neg (by decide), if_pos (by decide), ih, List.count_cons_of_ne (by decide)]

/-! ### How the parts begin -/

/-- The characters that the length modifiers and the conversion begin with. -/
def lengthStarts : List UInt8 :=
  [chr 'l', chr 'h', chr 'z', chr 'j', chr 't', chr 'd', chr 'i', chr 'u', chr 'o', chr 'x', chr 'X']

theorem begins_length (l : List LengthMod) (conv : IntConv) (rest : List UInt8) :
    ∃ c t, l.map LengthMod.code ++ conv.code :: rest = c :: t ∧ c ∈ lengthStarts := by
  cases l with
  | nil =>
    refine ⟨conv.code, rest, rfl, ?_⟩
    cases conv <;> decide
  | cons a l =>
    refine ⟨a.code, _, rfl, ?_⟩
    cases a <;> decide

theorem lengthStarts_spec : ∀ c ∈ chr '.' :: lengthStarts, isFlag c = false ∧ isdigit c = false ∧ c ≠ chr '*' := by
  decide +kernel

theorem dot_not_mem_lengthStarts : chr '.' ∉ lengthStarts := by decide +kernel

/-- Digits do not begin with a `*`, nor does what stands behind them. -/
theorem head_digits_ne_star (ds : List (Fin 10)) {c : UInt8} {t : List UInt8} (ht : fmt = c :: t) (hc : c ≠ chr '*') :
    (digitsText ds ++ fmt).head? ≠ some (chr '*') := by
  cases ds with
  | nil =>
    show fmt.head? ≠ _
    rw [ht, List.head?_cons]
    exact fun heq => hc (Option.some.inj heq)
  | cons k ds =>
    intro heq
    exact (by decide : ∀ k : Fin 10, digs false k ≠ chr '*') k (Option.some.inj heq)

theorem begins_prec (d : IntDirective) (rest : List UInt8) :
    ∃ c t, d.precText ++ (d.mods.map LengthMod.code ++ d.conv.code :: rest) = c :: t ∧ c ∈ chr '.' :: lengthStarts := by
  rw [IntDirective.precText]
  cases d.prec with
  | none =>
    obtain ⟨c, t, ht, hc⟩ := begins_length d.mods d.conv rest
    exact ⟨c, t, ht, List.mem_cons_of_mem _ hc⟩
  | some p => exact ⟨_, _, rfl, List.mem_cons_self⟩

theorem begins_width (d : IntDirective) (rest : List UInt8) :
    Begins isFlag (d.width.text ++ (d.precText ++ (d.mods.map LengthMod.code ++ d.conv.code :: rest))) := by
  have hstarts := d.widthStarts
  cases hw : d.width with
  | star => exact ⟨_, _, rfl, by decide⟩
  | digits ds =>
    rw [hw] at hstarts
    cases ds with
    | nil =>
      obtain ⟨c, t, ht, hc⟩ := begins_prec d rest
      exact ⟨c, t, ht, (lengthStarts_spec c hc).1⟩
    | cons k ds =>
      refine ⟨digs false k, _, rfl, ?_⟩
      have hk : k ≠ 0 := fun hzero => hstarts (congrArg some hzero)
      exact (by decide : ∀ k : Fin 10, k ≠ 0 → isFlag (digs false k) = false) k hk

theorem parseWidth_text (d : IntDirective) (rest : List UInt8) :
    parseWidth args ap d.flagSet (d.width.text ++ (d.precText ++ (d.mods.map LengthMod.code ++ d.conv.code :: rest))) =
      (d.fieldFlags args ap, d.fieldWidth args ap, ap + d.width.slots,
        d.precText ++ (d.mods.map LengthMod.code ++ d.conv.code :: rest)) := by
  obtain ⟨c, t, ht, hc⟩ := begins_prec d rest
  have hfits := d.widthFits
  rw [IntDirective.fieldFlags, IntDirective.fieldWidth, IntDirective.widthValue]
  cases hw : d.width with
  | star =>
    show parseWidth args ap d.flagSet (chr '*' :: _) = (if argInt args ap < 0 then _ else _, if argInt args ap < 0 then _
      else _, _)
    rw [parseWidth, if_pos (by rfl)]
    by_cases hneg : argInt args ap < 0
    · simp only [if_pos hneg, List.tail_cons]
      rfl
    · simp only [if_neg hneg, List.tail_cons]
      rfl
  | digits ds =>
    rw [hw] at hfits
    have hnonneg : ¬(Amount.digits ds).value args ap < 0 := Int.not_lt.mpr (Int.natCast_nonneg _)
    rw [if_neg hnonneg, if_neg hnonneg]
    have hbegins : Begins isdigit (d.precText ++ (d.mods.map LengthMod.code ++ d.conv.code :: rest)) :=
      ⟨c, t, ht, (lengthStarts_spec c hc).2.1⟩
    have hscan := scanDigits_text ds 0 hfits hbegins
    have hstar := head_digits_ne_star ds ht (lengthStarts_spec c hc).2.2
    show parseWidth args ap d.flagSet (digitsText ds ++ _) = _
    rw [parseWidth, if_neg hstar]
    have hzero : scanDigits (digitsText ds ++ (d.precText ++ (d.mods.map LengthMod.code ++ d.conv.code :: rest))) 0 =
      ((digitsValue 0 ds : ℤ), d.precText ++ (d.mods.map LengthMod.code ++ d.conv.code :: rest)) := hscan
    simp only [hzero]
    rfl

theorem parsePrec_digits {v : ℤ} (hstar : fmt.head? ≠ some (chr '*')) (hscan : scanDigits fmt 0 = (v, tail)) :
    parsePrec args ap (chr '.' :: fmt) = (if v < 0 then -1 else v, ap, tail) := by
  have hbody : parsePrec args ap (chr '.' :: fmt) =
      (let r := if fmt.head? = some (chr '*') then (argInt args ap, ap + 1, fmt.tail)
        else ((scanDigits fmt 0).1, ap, (scanDigits fmt 0).2)
      (if r.1 < 0 then -1 else r.1, r.2.1, r.2.2)) := rfl
  rw [hbody, if_neg hstar, hscan]

theorem parsePrec_text (d : IntDirective) (rest : List UInt8) :
    parsePrec args (ap + d.width.slots) (d.precText ++ (d.mods.map LengthMod.code ++ d.conv.code :: rest)) =
      (d.precValue args ap, d.argAt ap, d.mods.map LengthMod.code ++ d.conv.code :: rest) := by
  obtain ⟨c, t, ht, hc⟩ := begins_length d.mods d.conv rest
  have hstarts := lengthStarts_spec c (List.mem_cons_of_mem _ hc)
  rw [IntDirective.precText, IntDirective.precValue, IntDirective.argAt]
  cases hp : d.prec with
  | none =>
    have hdot : (d.mods.map LengthMod.code ++ d.conv.code :: rest).head? ≠ some (chr '.') := by
      rw [ht, List.head?_cons]
      rintro ⟨⟩
      exact dot_not_mem_lengthStarts hc
    show parsePrec args _ (d.mods.map LengthMod.code ++ d.conv.code :: rest) = _
    rw [parsePrec, if_neg hdot]
    rfl
  | some p =>
    have hfits := d.precFits p hp
    cases p with
    | star => rfl
    | digits ds =>
      have hscan : scanDigits (digitsText ds ++ (d.mods.map LengthMod.code ++ d.conv.code :: rest)) 0 =
          ((digitsValue 0 ds : ℤ), d.mods.map LengthMod.code ++ d.conv.code :: rest) :=
        scanDigits_text ds 0 hfits ⟨c, t, ht, hstarts.2.1⟩
      exact parsePrec_digits (head_digits_ne_star ds ht hstarts.2.2) hscan

/-! ### The conversion -/

theorem convert_integer (conv : IntConv) (width prec : ℤ) (lng : ℕ) (st : Fmt) :
    convert args f width prec lng conv.code st =
      { st with
        sink := st.sink.puts
          (if conv.signed then signedText f width prec (argSigned args lng st.ap)
          else unsignedText conv.code f width prec (argUnsigned args lng st.ap))
        ap := st.ap + 1 } := by
  rw [convert]
  cases conv with
  | d => rw [if_pos (by decide), convSigned_eq]; rfl
  | i => rw [if_pos (by decide), convSigned_eq]; rfl
  | u => rw [if_neg (by decide), if_pos (by decide), convUnsigned_eq]; rfl
  | o => rw [if_neg (by decide), if_pos (by decide), convUnsigned_eq]; rfl
  | x => rw [if_neg (by decide), if_pos (by decide), convUnsigned_eq]; rfl
  | X => rw [if_neg (by decide), if_pos (by decide), convUnsigned_eq]; rfl

/-- **What `vfmt` does with a directive**: it puts the text of the argument, and goes on behind the directive and with
the argument after it. -/
theorem directive_put (d : IntDirective) (st : Fmt) (rest : List UInt8) :
    directive args st (d.text ++ rest) =
      ({ st with sink := st.sink.puts (d.put args st.ap), ap := d.argAt st.ap + 1 }, rest) := by
  have htext : d.text ++ rest = d.flags.map FlagChar.code ++
      (d.width.text ++ (d.precText ++ (d.mods.map LengthMod.code ++ d.conv.code :: rest))) := by
    rw [IntDirective.text, List.append_assoc, List.append_assoc, List.append_assoc, List.append_assoc]
    rfl
  have hflags : d.flags.foldl FlagChar.set noFlags = d.flagSet := rfl
  rw [directive, htext, parseFlags_text d.flags noFlags (begins_width d rest), hflags]
  simp only [parseWidth_text d rest, parsePrec_text d rest, scanLength_text, Nat.zero_add, convert_integer]
  rfl

theorem directive_text (d : IntDirective) (st : Fmt) (rest : List UInt8) (hwidth : 0 ≤ d.widthValue args st.ap) :
    directive args st (d.text ++ rest) =
      ({ st with sink := st.sink.puts (d.output args st.ap), ap := d.argAt st.ap + 1 }, rest) := by
  have hput : d.put args st.ap = d.output args st.ap := by
    rw [IntDirective.put, IntDirective.output, IntDirective.fieldFlags, IntDirective.fieldWidth,
      if_neg (Int.not_lt.mpr hwidth), if_neg (Int.not_lt.mpr hwidth)]
  rw [directive_put, hput]

end LizardOs.User
