import LizardOs.Nolibc.Kprintf

/-!
# Directives of the kernel's formatted output

What one round of `kvprintf` and of `sprintf` does with a directive, wherever in a format it stands.  An `int` comes out
in decimal from both unless it is `INT_MIN`: both negate it as an `int` and convert the result to 64 bits, which gives a
number of 20 digits.  `kvprintf` prints that number, and in `sprintf` its NUL is stored behind the local buffer
(`renders_iff`).
-/

namespace LizardOs.Nolibc

open LizardOs.Lib LizardOs.User

/-- The decimal representation of an integer. -/
def intText (val : ℤ) : List UInt8 := (if val < 0 then [chr '-'] else []) ++ numeral 10 false val.natAbs

/-- What both functions convert for `%d`, without the sign. -/
def magnitudeOf (val : ℤ) : UInt64 := UInt64.ofInt (if val < 0 then int32 (-val) else val)

/-- The characters that come out for `%d`. -/
def renderedText (val : ℤ) : List UInt8 :=
  (if val < 0 then [chr '-'] else []) ++ numeral 10 false (magnitudeOf val).toNat

section

variable {val : ℤ} {str text data out : List UInt8} {n : ℕ}

/-! ### The magnitude -/

theorem toNat_ofInt {x : ℤ} (h0 : 0 ≤ x) (h : x < 2 ^ 64) : (UInt64.ofInt x).toNat = x.toNat := by
  have hofInt : (UInt64.ofInt x).toNat = (x % 2 ^ 64).toNat % 2 ^ 64 := rfl
  rw [hofInt, Int.emod_eq_of_lt h0 h]
  exact Nat.mod_eq_of_lt (by omega)

theorem magnitudeOf_eq (hlo : INT_MIN < val) (hhi : val ≤ INT_MAX) : (magnitudeOf val).toNat = val.natAbs := by
  rw [INT_MIN] at hlo
  rw [INT_MAX] at hhi
  rw [magnitudeOf]
  split
  · rw [int32_small (by omega) (by omega), toNat_ofInt (by omega) (by omega)]
    omega
  · rw [toNat_ofInt (by omega) (by omega)]
    omega

theorem renderedText_eq (hlo : INT_MIN < val) (hhi : val ≤ INT_MAX) : renderedText val = intText val := by
  rw [renderedText, intText, magnitudeOf_eq hlo hhi]

theorem length_renderedText_min : (renderedText INT_MIN).length = 21 := by decide

theorem length_intText_min : (intText INT_MIN).length = 11 := by decide

/-- Every `int` but the least is converted to ten digits at most. -/
theorem length_numeral_magnitudeOf (hlo : INT_MIN < val) (hhi : val ≤ INT_MAX) :
    (numeral 10 false (magnitudeOf val).toNat).length ≤ 10 := by
  rw [magnitudeOf_eq hlo hhi]
  rw [INT_MIN] at hlo
  rw [INT_MAX] at hhi
  exact length_numeral_le (by decide) (by decide) (by omega)

theorem argInt_bounds (args : ℕ → UInt64) (ap : ℕ) : INT_MIN ≤ argInt args ap ∧ argInt args ap ≤ INT_MAX := by
  have hbounds := int32_bounds (args ap).toNat
  rw [INT_MIN, INT_MAX, argInt]
  omega

/-! ### Printing -/

theorem kprint_eq (h : 255 ∉ data) (out : List UInt8) : kprint data out = (true, out ++ data) := by
  induction data generalizing out with
  | nil => rw [kprint, List.append_nil]
  | cons c data ih =>
    rw [kprint, if_neg (List.ne_of_not_mem_cons h).symm, ih (List.not_mem_of_not_mem_cons h), List.append_assoc]
    rfl

theorem not_mem_numeral {c : UInt8} (hc : isdigit c = false) (v : ℕ) : c ∉ numeral 10 false v := by
  intro hmem
  rw [isdigit_numeral v c hmem] at hc
  cases hc

/-- What a round leaves that prints a text for an argument. -/
def Kv.add (st : Kv) (text : List UInt8) : Kv :=
  { out := st.out ++ text, written := int32 (st.written + text.length), ap := st.ap + 1 }

/-- A number whose array holds its text is printed. -/
theorem Kv.number_eq (st : Kv) {size : ℕ} {fill : List UInt8 → Option (List UInt8)} {r : List UInt8}
    (format : List UInt8) (hroom : st.maxrem ≠ 0) (hfill : fill (List.replicate (size + 1) 0) = some (text ++ r))
    (hsize : text.length = size) (hplain : 255 ∉ text) :
    { st with ap := st.ap + 1 : Kv }.number size 0 fill format = some (.next (st.add text) format) := by
  have htake : (text ++ r).take size = text := by rw [← hsize, List.take_left]
  have hmaxrem : { st with ap := st.ap + 1 : Kv }.maxrem ≠ 0 := hroom
  rw [Kv.number, if_neg hmaxrem, hfill, Option.map_some, htake, Kv.print, kprint_eq hplain]
  simp only [if_true, Nat.add_zero]
  rw [Kv.add, hsize]

theorem length_replicate_laid (h : text.length = n + 1) :
    laid (List.replicate (n + 1) 0) text = some text := by
  rw [laid_eq (by rw [h, List.length_replicate]), List.drop_of_length_le (by rw [h, List.length_replicate]),
    List.append_nil]

/-- An unsigned number. -/
theorem Kv.number_unsigned (st : Kv) (number : UInt64) (format : List UInt8) (hroom : st.maxrem ≠ 0) :
    { st with ap := st.ap + 1 : Kv }.number (getUnsigned2stringFinalSize number) 0 (unsignedToString number) format =
      some (.next (st.add (numeral 10 false number.toNat)) format) := by
  apply st.number_eq format hroom (r := [0]) ?_ (getUnsigned2stringFinalSize_eq number).symm
    (not_mem_numeral (by decide) _)
  rw [unsignedToString_eq, getUnsigned2stringFinalSize_eq]
  exact length_replicate_laid (by rw [List.length_append, List.length_singleton])

/-- The branch for `%d` prints the sign and the magnitude; its array has room for every value. -/
theorem Kv.decimal_eq (st : Kv) (val : ℤ) (format : List UInt8) (hroom : st.maxrem ≠ 0) :
    { st with ap := st.ap + 1 : Kv }.decimal val format = some (.next (st.add (renderedText val)) format) := by
  rw [Kv.decimal]
  by_cases hneg : val < 0
  · have hmag : UInt64.ofInt (int32 (-val)) = magnitudeOf val := by rw [magnitudeOf, if_pos hneg]
    have htext : renderedText val = chr '-' :: numeral 10 false (magnitudeOf val).toNat := by
      rw [renderedText, if_pos hneg]
      rfl
    simp only [if_pos hneg, hmag]
    rw [htext]
    have hplain : 255 ∉ chr '-' :: numeral 10 false (magnitudeOf val).toNat :=
      List.not_mem_cons_of_ne_of_not_mem (by decide) (not_mem_numeral (by decide) _)
    refine st.number_eq format hroom (r := [0]) ?_ ?_ hplain
    · rw [getUnsigned2stringFinalSize_eq, List.replicate_succ, store, if_pos (by simp), Option.bind_some,
        List.set_cons_zero, List.drop_succ_cons, List.drop_zero, unsignedToString_eq,
        length_replicate_laid (by rw [List.length_append, List.length_singleton]), Option.map_some]
      rfl
    · rw [List.length_cons, getUnsigned2stringFinalSize_eq]
  · have hmag : UInt64.ofInt val = magnitudeOf val := by rw [magnitudeOf, if_neg hneg]
    have htext : renderedText val = numeral 10 false (magnitudeOf val).toNat := by
      rw [renderedText, if_neg hneg]
      rfl
    simp only [if_neg hneg, hmag]
    rw [htext]
    exact st.number_unsigned (magnitudeOf val) format hroom

/-! ### The loop of `kvprintf` -/

variable {args : ℕ → UInt64} {strs : UInt64 → List UInt8} {format format' : List UInt8} {st st' : Kv} {c : UInt8}

/-- A round that goes on leaves at most `k` characters of the format. -/
def Leaves (k : ℕ) (r : Option Round) : Prop := ∀ st format, r = some (.next st format) → format.length ≤ k

theorem Leaves.fail (k : ℕ) (out : List UInt8) : Leaves k (some (.fail out)) := by
  intro st format h
  cases h

theorem Leaves.print {k amount : ℕ} (hlen : format.length ≤ k) : Leaves k (some (st.print data amount format)) := by
  intro st' format' h
  rw [Kv.print] at h
  split at h
  · obtain ⟨-, rfl⟩ := Round.next.inj (Option.some.inj h)
    exact hlen
  · cases h

theorem Leaves.ite {k : ℕ} {p : Prop} [Decidable p] {r r' : Option Round} (h : Leaves k r) (h' : Leaves k r') :
    Leaves k (if p then r else r') := by
  split
  · exact h
  · exact h'

theorem Leaves.number {k size extra : ℕ} {fill : List UInt8 → Option (List UInt8)} (hlen : format.length ≤ k) :
    Leaves k (st.number size extra fill format) := by
  refine Leaves.ite (Leaves.fail k _) fun st' format' h => ?_
  obtain ⟨a, -, hprint⟩ := Option.map_eq_some_iff.mp h
  exact Leaves.print hlen st' format' (congrArg some hprint)

theorem Leaves.decimal {k : ℕ} (hlen : format.length ≤ k) : Leaves k (st.decimal val format) := by
  rw [Kv.decimal]
  exact Leaves.number hlen

/-- A directive leaves a part of the format behind the `%`. -/
theorem kvDirective_leaves (args : ℕ → UInt64) (strs : UInt64 → List UInt8) (st : Kv) (format : List UInt8) :
    Leaves format.length (kvDirective args strs st format) := by
  have hdrop : ∀ k, (format.drop k).length ≤ format.length := by
    intro k
    rw [List.length_drop]
    exact Nat.sub_le _ _
  refine Leaves.ite (Leaves.ite (Leaves.fail _ _) (Leaves.print (hdrop 1))) ?_
  refine Leaves.ite (Leaves.ite (Leaves.fail _ _) (Leaves.print (hdrop 1))) ?_
  refine Leaves.ite (Leaves.number (hdrop 3)) ?_
  refine Leaves.ite (Leaves.number (hdrop 1)) ?_
  refine Leaves.ite (Leaves.decimal (hdrop 1)) ?_
  refine Leaves.ite (Leaves.number (hdrop 1)) ?_
  refine Leaves.ite (Leaves.ite (Leaves.fail _ _) (Leaves.number (hdrop 1))) ?_
  exact Leaves.ite (Leaves.fail _ _) (Leaves.print (Nat.zero_le _))

/-- Each round takes a character at least. -/
theorem kvRound_leaves (args : ℕ → UInt64) (strs : UInt64 → List UInt8) (st : Kv) (c : UInt8) (format : List UInt8) :
    Leaves format.length (kvRound args strs st c format) := by
  refine Leaves.ite (Leaves.ite (Leaves.fail _ _) (Leaves.print ?_)) (kvDirective_leaves args strs st format)
  rw [List.length_drop]
  split
  · exact Nat.sub_le _ _
  · rw [List.length_cons]
    omega

theorem kvLoop_fuel (h : format.length ≤ n) : kvLoop args strs n st format = kvRun args strs st format := by
  rw [kvRun]
  induction n using Nat.strong_induction_on generalizing st format with
  | _ n ih =>
    cases format with
    | nil =>
      cases n with
      | zero => rfl
      | succ n => rfl
    | cons c format =>
      rw [List.length_cons] at h
      obtain ⟨n, rfl⟩ := Nat.exists_eq_add_of_le' (Nat.le_trans (Nat.le_add_left 1 _) h)
      rw [List.length_cons, kvLoop, kvLoop]
      cases hr : kvRound args strs st c format with
      | none => rfl
      | some r =>
        cases r with
        | fail out => rfl
        | next st' format' =>
          have hleft := kvRound_leaves args strs st c format st' format' hr
          show kvLoop args strs n st' format' = kvLoop args strs format.length st' format'
          rw [ih n (Nat.lt_succ_self n) (by omega), ih format.length (by omega) hleft]

/-- A round of the loop. -/
theorem kvRun_next (h : kvRound args strs st c format = some (.next st' format')) :
    kvRun args strs st (c :: format) = kvRun args strs st' format' := by
  have hleft := kvRound_leaves args strs st c format st' format' h
  rw [kvRun, List.length_cons, kvLoop, h]
  exact kvLoop_fuel hleft

/-! ### Directives -/

theorem head_ne {a b : UInt8} (h : a ≠ b) (format : List UInt8) : (a :: format).head? ≠ some b := by
  rw [List.head?_cons]
  exact fun heq => h (Option.some.inj heq)

theorem take_ne {a : UInt8} (h : a ≠ chr 'l') (format : List UInt8) :
    (a :: format).take 3 ≠ [chr 'l', chr 'l', chr 'u'] := by
  rw [List.take_succ_cons]
  exact fun heq => h (List.cons.inj heq).1

theorem kvRound_directive (hc : c ≠ chr '%') (st : Kv) (format : List UInt8) :
    kvRound args strs st (chr '%') (c :: format) = kvDirective args strs st (c :: format) := by
  rw [kvRound, if_neg]
  rintro (h | h)
  · exact h rfl
  · exact head_ne hc format h

theorem kvDirective_d (st : Kv) (format : List UInt8) :
    kvDirective args strs st (chr 'd' :: format) =
      { st with ap := st.ap + 1 : Kv }.decimal (argInt args st.ap) format := by
  rw [kvDirective]
  simp only []
  rw [if_neg (head_ne (by decide) format), if_neg (head_ne (by decide) format), if_neg (take_ne (by decide) format),
    if_neg (head_ne (by decide) format), if_pos List.head?_cons]
  rfl

theorem kvDirective_u (st : Kv) (format : List UInt8) :
    kvDirective args strs st (chr 'u' :: format) =
      { st with ap := st.ap + 1 : Kv }.number (getUnsigned2stringFinalSize (args st.ap).toUInt32.toUInt64) 0
        (unsignedToString (args st.ap).toUInt32.toUInt64) format := by
  rw [kvDirective]
  simp only []
  rw [if_neg (head_ne (by decide) format), if_neg (head_ne (by decide) format), if_neg (take_ne (by decide) format),
    if_pos List.head?_cons]
  rfl

theorem kvDirective_c (st : Kv) (format : List UInt8) (hroom : st.maxrem ≠ 0) :
    kvDirective args strs st (chr 'c' :: format) =
      some ({ st with ap := st.ap + 1 : Kv }.print [(args st.ap).toUInt8] 1 format) := by
  have hmaxrem : { st with ap := st.ap + 1 : Kv }.maxrem ≠ 0 := hroom
  rw [kvDirective]
  simp only []
  rw [if_pos List.head?_cons, if_neg hmaxrem]
  rfl

theorem kvDirective_s (st : Kv) (format : List UInt8) (hptr : args st.ap ≠ 0)
    (hroom : (strs (args st.ap)).length ≤ st.maxrem) :
    kvDirective args strs st (chr 's' :: format) =
      some ({ st with ap := st.ap + 1 : Kv }.print (strs (args st.ap)) (strs (args st.ap)).length format) := by
  have hmaxrem : ¬{ st with ap := st.ap + 1 : Kv }.maxrem < (strs (args st.ap)).length := Nat.not_lt.mpr hroom
  rw [kvDirective]
  simp only []
  rw [if_neg (head_ne (by decide) format), if_pos List.head?_cons, if_neg hptr, if_neg hmaxrem]
  rfl

/-- **`%d` in `kvprintf`**, wherever the loop meets it. -/
theorem kvRun_d (st : Kv) (format : List UInt8) (hroom : st.maxrem ≠ 0) :
    kvRun args strs st (chr '%' :: chr 'd' :: format) =
      kvRun args strs (st.add (renderedText (argInt args st.ap))) format := by
  apply kvRun_next
  rw [kvRound_directive (by decide), kvDirective_d, st.decimal_eq _ _ hroom]

/-! ### `sprintf` -/

variable {junk : ℕ → Vector UInt8 20} {sp : Sp}

theorem untilNul_text (h : 0 ∉ text) (r : List UInt8) : untilNul (text ++ 0 :: r) = some text := by
  induction text with
  | nil => exact if_pos rfl
  | cons c text ih =>
    rw [List.cons_append, untilNul, if_neg (List.ne_of_not_mem_cons h).symm, ih (List.not_mem_of_not_mem_cons h)]
    rfl

/-- What `sprintf` reads back from a local buffer of 20 bytes: the number, if it fits with its NUL. -/
theorem numBuffer_eq {β : Type} (value : UInt64) (junk : Vector UInt8 20) (f : List UInt8 → β) :
    ((unsignedToString value junk.toList).bind fun num => (untilNul num).map f) =
      if (numeral 10 false value.toNat).length < 20 then some (f (numeral 10 false value.toNat)) else none := by
  have hlen : (numeral 10 false value.toNat ++ [0]).length = (numeral 10 false value.toNat).length + 1 := by
    rw [List.length_append, List.length_singleton]
  rw [unsignedToString_eq, laid, hlen, Vector.length_toList]
  by_cases hfits : (numeral 10 false value.toNat).length < 20
  · rw [if_pos (Nat.succ_le_of_lt hfits), if_pos hfits, Option.bind_some, List.append_assoc]
    exact congrArg (Option.map f) (untilNul_text (not_mem_numeral (by decide) _) _)
  · rw [if_neg fun hle => hfits (Nat.lt_of_succ_le hle), if_neg hfits]
    rfl

/-- What a round leaves that writes a text for an argument. -/
def Sp.add (st : Sp) (text : List UInt8) : Sp := { st with ap := st.ap + 1 : Sp }.puts text

theorem spDirective_d (st : Sp) :
    spDirective args strs junk st (chr 'd') =
      if (numeral 10 false (magnitudeOf (argInt args st.ap)).toNat).length < 20 then
        some (st.add (renderedText (argInt args st.ap)))
      else none := by
  have hputs : ∀ text, (if argInt args st.ap < 0 then { st with ap := st.ap + 1 : Sp }.putc (chr '-')
      else { st with ap := st.ap + 1 : Sp }).puts text =
        st.add ((if argInt args st.ap < 0 then [chr '-'] else []) ++ text) := by
    intro text
    split
    · rfl
    · rfl
  rw [spDirective]
  simp only []
  rw [if_neg (by decide), if_pos trivial, numBuffer_eq, hputs]
  rfl

theorem spDirective_u (st : Sp) :
    spDirective args strs junk st (chr 'u') = some (st.add (numeral 10 false ((args st.ap).toNat % 2 ^ 32))) := by
  have hvalue : (args st.ap).toUInt32.toUInt64.toNat = (args st.ap).toNat % 2 ^ 32 := rfl
  have hfits : (numeral 10 false ((args st.ap).toNat % 2 ^ 32)).length ≤ 10 :=
    length_numeral_le (by decide) (by decide) (Nat.lt_trans (Nat.mod_lt _ (by decide)) (by decide))
  rw [spDirective]
  simp only []
  rw [if_neg (by decide), if_neg (by decide), if_pos trivial, numBuffer_eq, hvalue, if_pos (by omega)]
  rfl

/-- **`%d` in `sprintf`**: of the values, `INT_MIN` alone does not fit into the local buffer. -/
theorem spLoop_d (sp : Sp) (format : List UInt8) (hmin : argInt args sp.ap ≠ INT_MIN) :
    spLoop args strs junk (chr '%' :: chr 'd' :: format) sp =
      spLoop args strs junk format (sp.add (intText (argInt args sp.ap))) := by
  obtain ⟨hlo, hhi⟩ := argInt_bounds args sp.ap
  have hlt : INT_MIN < argInt args sp.ap := lt_of_le_of_ne hlo (Ne.symm hmin)
  have hfits := length_numeral_magnitudeOf hlt hhi
  rw [spLoop, if_pos rfl, spDirective_d, if_pos (by omega), Option.bind_some, renderedText_eq hlt hhi]

theorem spLoop_d_min (sp : Sp) (format : List UInt8) (hmin : argInt args sp.ap = INT_MIN) :
    spLoop args strs junk (chr '%' :: chr 'd' :: format) sp = none := by
  have hlong : ¬(numeral 10 false (magnitudeOf INT_MIN).toNat).length < 20 := by decide
  rw [spLoop, if_pos rfl, spDirective_d, hmin, if_neg hlong]
  rfl

/-! ### `%d` comes out exactly -/

/-- Wherever the loop of `kvprintf` meets `%d` for the value, it prints its decimal representation. -/
def KvRenders (val : ℤ) : Prop :=
  ∀ (args : ℕ → UInt64) (strs : UInt64 → List UInt8) (st : Kv) (format : List UInt8), argInt args st.ap = val →
    st.maxrem ≠ 0 →
    kvRun args strs st (chr '%' :: chr 'd' :: format) = kvRun args strs (st.add (intText val)) format

/-- Wherever the loop of `sprintf` meets `%d` for the value, it writes its decimal representation, inside its arrays. -/
def SpRenders (val : ℤ) : Prop :=
  ∀ (args : ℕ → UInt64) (strs : UInt64 → List UInt8) (junk : ℕ → Vector UInt8 20) (st : Sp) (format : List UInt8),
    argInt args st.ap = val →
    spLoop args strs junk (chr '%' :: chr 'd' :: format) st = spLoop args strs junk format (st.add (intText val))

theorem kvRenders_of_ne (hlo : INT_MIN < val) (hhi : val ≤ INT_MAX) : KvRenders val := by
  intro args strs st format hval hroom
  rw [kvRun_d st format hroom, hval, renderedText_eq hlo hhi]

theorem spRenders_of_ne (hne : val ≠ INT_MIN) : SpRenders val := by
  intro args strs junk st format hval
  rw [spLoop_d st format (hval ▸ hne), hval]

/-- The word of an `INT_MIN`. -/
theorem argInt_min : argInt (fun _ => 0x80000000) 0 = INT_MIN := by decide

/-- `kvprintf` prints 21 characters for `INT_MIN`, of which the decimal representation has 11. -/
theorem not_kvRenders_min : ¬KvRenders INT_MIN := by
  intro h
  have hroom : Kv.maxrem ⟨[], 0, 0⟩ ≠ 0 := by decide
  have hsame := h (fun _ => 0x80000000) (fun _ => []) ⟨[], 0, 0⟩ [] argInt_min hroom
  rw [kvRun_d _ _ hroom, argInt_min] at hsame
  have hout : renderedText INT_MIN = intText INT_MIN := (Prod.mk.inj (Option.some.inj hsame)).2
  have hlen := congrArg List.length hout
  rw [length_renderedText_min, length_intText_min] at hlen
  exact absurd hlen (by decide)

theorem not_spRenders_min : ¬SpRenders INT_MIN := by
  intro h
  have hsame := h (fun _ => 0x80000000) (fun _ => []) (fun _ => Vector.replicate 20 0) ⟨fun _ => 0, 0, 0⟩ [] argInt_min
  rw [spLoop_d_min ⟨fun _ => 0, 0, 0⟩ [] argInt_min, spLoop] at hsame
  exact nomatch hsame

theorem renders_iff (hlo : INT_MIN ≤ val) (hhi : val ≤ INT_MAX) : KvRenders val ∧ SpRenders val ↔ val ≠ INT_MIN := by
  constructor
  · rintro ⟨hkv, -⟩ rfl
    exact not_kvRenders_min hkv
  · intro hne
    exact ⟨kvRenders_of_ne (lt_of_le_of_ne hlo (Ne.symm hne)) hhi, spRenders_of_ne hne⟩

end

end LizardOs.Nolibc
