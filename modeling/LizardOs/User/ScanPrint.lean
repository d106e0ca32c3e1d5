import LizardOs.User.ScanRead
import Mathlib.Data.Nat.Digits.Lemmas

/-!
# Scanning undoes printing

A list of integers is printed with one format, white space between them, and read back with another one: every integer
comes back (`sscanf_sprintf`).
-/

namespace LizardOs.User

open LizardOs.Lib

/-! ### What is printed -/

namespace IntConv

/-- The second conversion reads what the first one prints. -/
def readsBack : IntConv → IntConv → Bool
  | d, d => true
  | d, i => true
  | i, d => true
  | i, i => true
  | u, u => true
  | o, o => true
  | x, x => true
  | X, x => true
  | _, _ => false

variable (conv : IntConv) (word : UInt64)

def base : ℕ := if conv.signed then 10 else baseOf conv.code

/-- The argument is printed with a minus sign. -/
def negative : Bool := conv.signed && decide (int32 word.toNat < 0)

/-- The number whose digits are printed. -/
def magnitude : ℕ := if conv.signed then (int32 word.toNat).natAbs else word.toNat % 2 ^ 32

/-- What is printed for an argument. -/
def textOf : List UInt8 := minusText (conv.negative word) ++ numeral conv.base (conv.code = chr 'X') (conv.magnitude word)

/-- The directive without anything but the conversion. -/
def plain : IntDirective where
  flags := []
  width := .digits []
  prec := none
  mods := []
  conv := conv
  widthFits := by decide
  widthStarts := by decide
  precFits := Amount.fits_of_none

end IntConv

/-- An integer in a list: how it is printed and read, and the white space in front of it in either format. -/
structure Item where
  gap : List UInt8
  print : IntConv
  gapRead : List UInt8
  read : IntConv
  white : White gap
  whiteRead : White gapRead
  readsBack : print.readsBack read = true

/-- The format of `sprintf`, with white space at its end. -/
def printFormat (tail : List UInt8) : List Item → List UInt8
  | [] => tail
  | x :: items => x.gap ++ chr '%' :: x.print.code :: printFormat tail items

/-- The format of `sscanf`. -/
def readFormat (tail : List UInt8) : List Item → List UInt8
  | [] => tail
  | x :: items => x.gapRead ++ chr '%' :: x.read.code :: readFormat tail items

/-- What is printed for the arguments from `ap` on. -/
def itemsText (args : ℕ → UInt64) (tail : List UInt8) : ℕ → List Item → List UInt8
  | _, [] => tail
  | ap, x :: items => x.gap ++ (x.print.textOf (args ap) ++ itemsText args tail (ap + 1) items)

variable {args ptrs : ℕ → UInt64} {ap n : ℕ} {fmt tail ws g l : List UInt8} {items : List Item} {mem : Buf} {s : Sink}

/-- The text of a directive that has no flags, no width and no precision. -/
theorem fieldText_plain {lead num : List UInt8} (hnum : num.length ≤ 32) (hlead : lead.length ≤ 2) :
    fieldText false false 0 (-1) lead num = lead ++ num := by
  have hbody : ¬int32 (num.length + 0 + lead.length) < 0 := by
    have hsmall : int32 ((num.length + lead.length : ℕ) : ℤ) = (num.length + lead.length : ℕ) := int32_natCast (by omega)
    rw [add_zero, ← Int.natCast_add, hsmall]
    omega
  have hprec : ¬((0 : ℤ) ≤ -1 ∧ (num.length : ℤ) < -1) := fun h => absurd h.1 (by decide)
  rw [fieldText]
  simp only [if_neg hprec, if_neg hbody]
  simp

theorem plain_signed (conv : IntConv) : argSigned args conv.plain.long (conv.plain.argAt ap) = int32 (args ap).toNat := by
  have hlong : conv.plain.long = 0 := rfl
  have hat : conv.plain.argAt ap = ap := rfl
  rw [hlong, hat, argSigned, if_pos rfl, argInt]

theorem plain_unsigned (conv : IntConv) :
    argUnsigned args conv.plain.long (conv.plain.argAt ap) = (args ap).toNat % 2 ^ 32 := by
  have hlong : conv.plain.long = 0 := rfl
  have hat : conv.plain.argAt ap = ap := rfl
  rw [hlong, hat, argUnsigned, if_pos rfl]

theorem plain_leadText (conv : IntConv) : conv.plain.leadText args ap = minusText (conv.negative (args ap)) := by
  have hconv : conv.plain.conv = conv := rfl
  have hflags : conv.plain.flagSet = noFlags := rfl
  rw [IntDirective.leadText, IntConv.negative, hconv, hflags, plain_signed]
  cases conv.signed with
  | true =>
    rw [if_pos rfl, signText, minusText, Bool.true_and]
    by_cases hneg : int32 (args ap).toNat < 0
    · rw [if_pos hneg, if_pos (decide_eq_true hneg)]
    · rw [if_neg hneg, decide_eq_false hneg]
      rfl
  | false =>
    rw [if_neg Bool.false_ne_true, prefixText, if_neg fun h => absurd h.1 Bool.false_ne_true]
    rfl

theorem plain_digitText (conv : IntConv) :
    conv.plain.digitText args ap = numeral conv.base (conv.code = chr 'X') (conv.magnitude (args ap)) := by
  have hconv : conv.plain.conv = conv := rfl
  rw [IntDirective.digitText, IntDirective.magnitude, IntConv.base, IntConv.magnitude, hconv, plain_signed, plain_unsigned]

theorem plain_output (conv : IntConv) : conv.plain.output args ap = conv.textOf (args ap) := by
  have hnum : (conv.plain.digitText args ap).length ≤ 32 := by
    rw [digitText_eq]
    exact uToStr_length_le ..
  have htext : conv.plain.output args ap =
      fieldText false false 0 (-1) (conv.plain.leadText args ap) (conv.plain.digitText args ap) := output_eq conv.plain
  rw [htext, fieldText_plain hnum (leadText_length_le conv.plain), plain_leadText, plain_digitText, IntConv.textOf]

/-! ### Printing the list -/

theorem White.ne_percent {c : UInt8} (hc : isspace c.toNat = true) : c ≠ chr '%' := by
  rintro rfl
  exact absurd hc (by decide)

theorem vfmtLoop_white {st : Fmt} (hws : White ws) :
    vfmtLoop args (ws.length + n) st (ws ++ fmt) = vfmtLoop args n { st with sink := st.sink.puts ws } fmt := by
  induction ws generalizing st with
  | nil => rw [List.length_nil, Nat.zero_add, List.nil_append, puts_nil]
  | cons c ws ih =>
    rw [List.length_cons, Nat.add_right_comm, List.cons_append, vfmtLoop,
      if_pos (White.ne_percent (hws c List.mem_cons_self)), ih fun c hc => hws c (List.mem_cons_of_mem _ hc)]
    rfl

/-- **The loop of `vfmt` over the list**: it puts its text. -/
theorem vfmtLoop_items (htail : White tail) (hn : (printFormat tail items).length ≤ n) :
    vfmtLoop args n ⟨s, mem, ap⟩ (printFormat tail items) =
      ⟨s.puts (itemsText args tail ap items), mem, ap + items.length⟩ := by
  induction items generalizing s ap n with
  | nil =>
    obtain ⟨k, rfl⟩ : ∃ k, n = tail.length + k := ⟨n - tail.length, by rw [printFormat] at hn; omega⟩
    have hwhite : vfmtLoop args (tail.length + k) ⟨s, mem, ap⟩ (tail ++ []) = vfmtLoop args k ⟨s.puts tail, mem, ap⟩ [] :=
      vfmtLoop_white htail
    rw [List.append_nil] at hwhite
    rw [printFormat, hwhite]
    cases k with
    | zero => rfl
    | succ k => rfl
  | cons x items ih =>
    rw [printFormat, List.length_append, List.length_cons, List.length_cons] at hn
    obtain ⟨k, rfl⟩ : ∃ k, n = x.gap.length + (k + 1) := ⟨n - x.gap.length - 1, by omega⟩
    have hplain : directive args ⟨s.puts x.gap, mem, ap⟩ (x.print.code :: printFormat tail items) =
        (⟨(s.puts x.gap).puts (x.print.textOf (args ap)), mem, ap + 1⟩, printFormat tail items) := by
      have htext : directive args ⟨s.puts x.gap, mem, ap⟩ (x.print.plain.text ++ printFormat tail items) = _ :=
        directive_text x.print.plain ⟨s.puts x.gap, mem, ap⟩ (printFormat tail items) le_rfl
      rw [plain_output] at htext
      exact htext
    rw [printFormat, vfmtLoop_white x.white, vfmtLoop, if_neg (not_not.mpr rfl), hplain]
    show vfmtLoop args k ⟨(s.puts x.gap).puts (x.print.textOf (args ap)), mem, ap + 1⟩ (printFormat tail items) = _
    rw [ih (by omega), puts_append, puts_append, itemsText, List.length_cons, Nat.add_right_comm, Nat.add_assoc]

/-! ### Numerals read back -/

section

variable {upper : Bool} {b v : ℕ}

theorem digits_numeral (hb : 2 ≤ b) (h16 : b ≤ 16) (upper : Bool) (v : ℕ) : Digits b (numeral b upper v) := by
  have hdigit : ∀ d < b, digitOf (digs upper d).toNat = some (digitValue (digs upper d) : ℤ) ∧
      digitValue (digs upper d) < b := by
    intro d hd
    have hof : ∀ upper : Bool, ∀ d : Fin 16, digitOf (digs upper d).toNat = some (d : ℤ) := by decide
    rw [digitValue_digs upper (hd.trans_le h16)]
    exact ⟨hof upper ⟨d, hd.trans_le h16⟩, hd⟩
  intro c hc
  rw [numeral] at hc
  split at hc
  · rw [List.mem_singleton.mp hc]
    have hzero := hdigit 0 (by omega)
    cases upper with
    | false => exact hzero
    | true => exact hzero
  · rw [List.mem_reverse, List.mem_map] at hc
    obtain ⟨d, hd, rfl⟩ := hc
    exact hdigit d (Nat.digits_lt_base hb hd)

/-- A numeral begins with a zero only when it is that of 0. -/
theorem numeral_cons (hb : 2 ≤ b) (h16 : b ≤ 16) (upper : Bool) (v : ℕ) :
    ∃ c ds, numeral b upper v = c :: ds ∧ (c = chr '0' → ds = []) := by
  rw [numeral]
  by_cases hv : v = 0
  · exact ⟨chr '0', [], if_pos hv, fun _ => rfl⟩
  · rw [if_neg hv]
    have hne : Nat.digits b v ≠ [] := Nat.digits_ne_nil_iff_ne_zero.mpr hv
    have hlast : (Nat.digits b v).getLast hne ≠ 0 := Nat.getLast_digit_ne_zero b hv
    have hlt : (Nat.digits b v).getLast hne < b := Nat.digits_lt_base hb (List.getLast_mem hne)
    have hzero : ∀ upper : Bool, ∀ d : Fin 16, d ≠ 0 → digs upper d ≠ chr '0' := by decide
    refine ⟨digs upper ((Nat.digits b v).getLast hne), ((Nat.digits b v).dropLast.map (digs upper)).reverse, ?_,
      fun heq => absurd heq (hzero upper ⟨_, hlt.trans_le h16⟩ fun h => hlast (congrArg Fin.val h))⟩
    conv_lhs => rw [← List.dropLast_append_getLast hne]
    rw [List.map_append, List.reverse_append]
    rfl

end

namespace IntConv

variable {conv : IntConv} {read : IntConv} {word : UInt64}

theorem base_bounds (conv : IntConv) : 4 ≤ conv.base ∧ conv.base ≤ 16 := by
  cases conv with
  | d => decide
  | i => decide
  | u => decide
  | o => decide
  | x => decide
  | X => decide

theorem magnitude_lt (conv : IntConv) (word : UInt64) : conv.magnitude word < 2 ^ 32 := by
  rw [magnitude]
  split
  · have hbounds := int32_bounds word.toNat
    omega
  · exact Nat.mod_lt _ (by decide)

/-- The conversion that reads back has the same base. -/
theorem scanBase_eq (h : conv.readsBack read = true) : scanBase read.code = conv.base := by
  cases conv <;> cases read <;> first | rfl | cases h

/-- The conversion that reads back is one that `__vscan_core` has. -/
theorem scans (h : conv.readsBack read = true) :
    read.code = chr 'd' ∨ read.code = chr 'i' ∨ read.code = chr 'u' ∨ read.code = chr 'x' ∨ read.code = chr 'o' := by
  cases read with
  | d => decide
  | i => decide
  | u => decide
  | o => decide
  | x => decide
  | X =>
    cases conv <;> cases h

/-- The number that is read is the argument, as a number of 32 bits. -/
theorem signedValue_emod (conv : IntConv) (word : UInt64) :
    (signedValue (conv.negative word) (conv.magnitude word) % 2 ^ 32).toNat = word.toNat % 2 ^ 32 := by
  have hmod : ((word.toNat : ℤ) % 2 ^ 32).toNat = word.toNat % 2 ^ 32 := by omega
  rw [signedValue, negative, magnitude]
  cases conv.signed with
  | true =>
    have hvalue : (if (true && decide (int32 word.toNat < 0)) = true then -((int32 word.toNat).natAbs : ℤ)
        else (int32 word.toNat).natAbs) = int32 word.toNat := by
      rw [Bool.true_and]
      by_cases hneg : int32 word.toNat < 0
      · rw [if_pos (decide_eq_true hneg)]
        omega
      · rw [if_neg (by rwa [decide_eq_true_eq])]
        omega
    have hpattern : int32 (word.toNat : ℤ) % 2 ^ 32 = (word.toNat : ℤ) % 2 ^ 32 := Int.bmod_emod
    rw [if_pos rfl, hvalue, hpattern, hmod]
  | false =>
    rw [Bool.false_and, if_neg Bool.false_ne_true, if_neg Bool.false_ne_true]
    omega

end IntConv

/-! ### Reading the list -/

/-- The memory after the first `n` values were assigned. -/
def storeWords (ptrs args : ℕ → UInt64) (mem : Buf) : ℕ → Buf
  | 0 => mem
  | n + 1 => storeLe (storeWords ptrs args mem n) (ptrs n).toNat 4 ((args n).toNat % 2 ^ 32)

/-- Pointers to different places hold the values that were assigned there. -/
theorem loadLe_storeWords
    (hapart : ∀ i < n, ∀ j < n, i ≠ j → (ptrs i).toNat + 4 ≤ (ptrs j).toNat ∨ (ptrs j).toNat + 4 ≤ (ptrs i).toNat) {i : ℕ}
    (hi : i < n) : loadLe (storeWords ptrs args mem n) (ptrs i).toNat 4 = (args i).toNat % 2 ^ 32 := by
  induction n with
  | zero => exact absurd hi (Nat.not_lt_zero i)
  | succ n ih =>
    rw [storeWords]
    by_cases hlast : i = n
    · rw [hlast]
      exact loadLe_storeLe (Nat.mod_lt _ (by decide))
    · have hi : i < n := by omega
      rw [loadLe_storeLe_apart _ (hapart i (by omega) n (Nat.lt_succ_self n) hlast)]
      exact ih (fun i hi j hj => hapart i (by omega) j (by omega)) hi

theorem White.append {ws' : List UInt8} (hws : White ws) (hws' : White ws') : White (ws ++ ws') := by
  intro c hc
  rcases List.mem_append.mp hc with hc | hc
  · exact hws c hc
  · exact hws' c hc

theorem White.ends (hws : White ws) : EndsNumber ws := by
  cases ws with
  | nil => exact .inl rfl
  | cons c ws => exact .inr ⟨c, ws, rfl, hws c List.mem_cons_self⟩

/-- Behind every integer of the list there is white space, or the end. -/
theorem endsNumber_items (hgaps : ∀ x ∈ items, x.gap ≠ []) (htail : White tail) (hws : White ws) :
    EndsNumber (itemsText args tail ap items ++ ws) := by
  cases items with
  | nil => exact (htail.append hws).ends
  | cons x items =>
    have hgap := hgaps x List.mem_cons_self
    have hwhite := x.white
    rw [itemsText]
    cases hx : x.gap with
    | nil => exact absurd hx hgap
    | cons c gap =>
      rw [hx] at hwhite
      exact .inr ⟨c, _, rfl, hwhite c List.mem_cons_self⟩

section

variable {σ : Type} {src : Src σ} {Fresh Holds : σ → List UInt8 → Prop} {st : Scan σ}

/-- White space in the format passes white space of the source over. -/
theorem vscanLoop_white (h : src.Lawful Fresh Holds) (ptrs : ℕ → UInt64) (n : ℕ) (fmt : List UInt8)
    (hg : White g) (hws : White ws) (hl : isspace (nextChar l) = false) (hs : Holds st.src (ws ++ l)) :
    ∃ ws' s', White ws' ∧ Holds s' (ws' ++ l) ∧
      vscanLoop src ptrs (g.length + n) st (g ++ fmt) = vscanLoop src ptrs n { st with src := s' } fmt := by
  induction g generalizing st ws with
  | nil =>
    refine ⟨ws, st.src, hws, hs, ?_⟩
    rw [List.length_nil, Nat.zero_add, List.nil_append]
  | cons c g ih =>
    have hleft : ws.length ≤ src.left st.src := by
      have hall := h.left hs
      rw [List.length_append] at hall
      omega
    obtain ⟨s₁, hskip, hfresh⟩ := skipSpaces_spec h hws hl hs hleft
    have hnext : Holds (src.unget s₁ (nextChar l)) ([] ++ l) := h.unget hfresh
    obtain ⟨ws', s', hws', hs', hrest⟩ : ∃ ws' s', White ws' ∧ Holds s' (ws' ++ l) ∧
        vscanLoop src ptrs (g.length + n) { st with src := src.unget s₁ (nextChar l) } (g ++ fmt) =
          vscanLoop src ptrs n { st with src := s' } fmt :=
      ih (fun c hc => hg c (List.mem_cons_of_mem _ hc)) (fun c hc => absurd hc List.not_mem_nil) hnext
    refine ⟨ws', s', hws', hs', ?_⟩
    rw [List.length_cons, Nat.add_right_comm, List.cons_append, vscanLoop, if_pos (hg c List.mem_cons_self)]
    simp only [hskip]
    exact hrest

/-- A directive that is only a conversion of an integer. -/
theorem scanDirective_int {c : UInt8} (hc : c = chr 'd' ∨ c = chr 'i' ∨ c = chr 'u' ∨ c = chr 'x' ∨ c = chr 'o') :
    scanDirective src ptrs st (c :: fmt) =
      ((scanInt src ptrs c SCAN_WIDTH false st).1, (scanInt src ptrs c SCAN_WIDTH false st).2, fmt) := by
  have hplain : c ≠ chr '*' ∧ isdigit c = false ∧ (c == chr 'l' || c == chr 'h' || c == chr 'z') = false := by
    rcases hc with rfl | rfl | rfl | rfl | rfl
    · decide
    · decide
    · decide
    · decide
    · decide
  obtain ⟨hstar, hdigit, hmods⟩ := hplain
  have hhead : ¬(c :: fmt).head? = some (chr '*') := fun h => hstar (Option.some.inj h)
  have hwidth : scanWidth (c :: fmt) 0 = (0, c :: fmt) := by
    rw [scanWidth, if_neg (by rw [hdigit]; exact Bool.false_ne_true)]
  have hdrop : (c :: fmt).dropWhile (fun c => c == chr 'l' || c == chr 'h' || c == chr 'z') = c :: fmt :=
    List.dropWhile_cons_of_neg (by rw [hmods]; exact Bool.false_ne_true)
  rw [scanDirective, if_neg hhead]
  simp only [hwidth, hdrop, if_pos hc, if_true]

/-- **Reading an integer of the list.** -/
theorem scanItem_spec (h : src.Lawful Fresh Holds) (ptrs : ℕ → UInt64) (fmt : List UInt8) (st : Scan σ) (x : Item)
    (word : UInt64) (hws : White ws) (hl : EndsNumber l) (hs : Holds st.src (ws ++ (x.print.textOf word ++ l))) :
    ∃ s', Holds s' l ∧ scanDirective src ptrs st (x.read.code :: fmt) =
      (none, ⟨s', storeLe st.mem (ptrs st.ap).toNat 4 (word.toNat % 2 ^ 32), st.ap + 1, int32 (st.assigned + 1)⟩,
        fmt) := by
  obtain ⟨hfour, h16⟩ := x.print.base_bounds
  have hbase := IntConv.scanBase_eq x.readsBack
  have hlt := x.print.magnitude_lt word
  obtain ⟨c, ds, hnumeral, hzero⟩ := numeral_cons (b := x.print.base) (by omega) h16 (x.print.code = chr 'X')
    (x.print.magnitude word)
  have hdigits := digits_numeral (b := x.print.base) (by omega) h16 (x.print.code = chr 'X') (x.print.magnitude word)
  have hvalue : numeralValue x.print.base 0 (numeral x.print.base (x.print.code = chr 'X') (x.print.magnitude word)) = _ :=
    numeralValue_numeral (by omega) h16 _ _
  have hlen := uToStr_length_le (x.print.magnitude word) x.print.base (x.print.code = chr 'X')
  rw [uToStr_eq hfour (by omega), hnumeral, List.length_cons] at hlen
  rw [hnumeral, ← hbase] at hdigits hvalue
  rw [IntConv.textOf, hnumeral, List.append_assoc] at hs
  obtain ⟨s', hs', hscan⟩ := scanInt_spec h ptrs (x.print.negative word) hws hdigits hzero hl (by omega) (by omega)
    hs
  refine ⟨s', hs', ?_⟩
  rw [scanDirective_int (IntConv.scans x.readsBack), hscan, hvalue, Scan.assign, IntConv.signedValue_emod]

/-- The state after the first `k` values, with the rest `l` of the source. -/
structure ScanState (Holds : σ → List UInt8 → Prop) (ptrs args : ℕ → UInt64) (mem : Buf) (st : Scan σ) (k : ℕ)
    (l : List UInt8) : Prop where
  holds : Holds st.src l
  mem : st.mem = storeWords ptrs args mem k
  ap : st.ap = k
  assigned : st.assigned = int32 k

/-- **The loop of `__vscan_core` over the list.** -/
theorem vscanLoop_items (h : src.Lawful Fresh Holds) {tailRead after : List UInt8} {k : ℕ}
    (hgaps : ∀ x ∈ items.tail, x.gap ≠ []) (htail : White tail) (htailRead : White tailRead) (hafter : White after)
    (hws : White ws) (hst : ScanState Holds ptrs args mem st k (ws ++ (itemsText args tail k items ++ after)))
    (hn : (readFormat tailRead items).length ≤ n) :
    (vscanLoop src ptrs n st (readFormat tailRead items)).1 = int32 (k + items.length : ℕ) ∧
      (vscanLoop src ptrs n st (readFormat tailRead items)).2.mem = storeWords ptrs args mem (k + items.length) := by
  induction items generalizing st ws n k with
  | nil =>
    obtain ⟨m, rfl⟩ : ∃ m, n = tailRead.length + m := ⟨n - tailRead.length, by rw [readFormat] at hn; omega⟩
    have hall : White (ws ++ (tail ++ after)) := hws.append (htail.append hafter)
    have hs : Holds st.src (ws ++ (tail ++ after) ++ []) := by
      rw [List.append_nil]
      exact hst.holds
    obtain ⟨-, s', -, -, hloop⟩ := vscanLoop_white h ptrs m [] htailRead hall (by decide) hs
    rw [List.append_nil] at hloop
    have hend : vscanLoop src ptrs m { st with src := s' } [] = (st.assigned, { st with src := s' }) := by
      cases m with
      | zero => rfl
      | succ m => rfl
    rw [readFormat, hloop, hend]
    exact ⟨hst.assigned, hst.mem⟩
  | cons x items ih =>
    rw [readFormat, List.length_append, List.length_cons, List.length_cons] at hn
    obtain ⟨m, rfl⟩ : ∃ m, n = x.gapRead.length + (m + 1) := ⟨n - x.gapRead.length - 1, by omega⟩
    have hends : EndsNumber (itemsText args tail (k + 1) items ++ after) := endsNumber_items hgaps htail hafter
    have hs : Holds st.src (ws ++ x.gap ++ (x.print.textOf (args k) ++ (itemsText args tail (k + 1) items ++ after))) := by
      have hs := hst.holds
      rw [itemsText, List.append_assoc, List.append_assoc, ← List.append_assoc] at hs
      exact hs
    have hfirst : isspace (nextChar (x.print.textOf (args k) ++ (itemsText args tail (k + 1) items ++ after))) = false := by
      obtain ⟨hfour, h16⟩ := x.print.base_bounds
      obtain ⟨c, ds, hnumeral, -⟩ := numeral_cons (b := x.print.base) (by omega) h16 (x.print.code = chr 'X')
        (x.print.magnitude (args k))
      have hdigits := digits_numeral (b := x.print.base) (by omega) h16 (x.print.code = chr 'X')
        (x.print.magnitude (args k))
      rw [hnumeral] at hdigits
      rw [IntConv.textOf, hnumeral, List.append_assoc]
      exact nextChar_number _ hdigits _
    obtain ⟨ws', s₁, hws', hs₁, hwhite⟩ := vscanLoop_white h ptrs (m + 1)
      (chr '%' :: x.read.code :: readFormat tailRead items) x.whiteRead (hws.append x.white) hfirst hs
    obtain ⟨s₂, hs₂, hitem⟩ := scanItem_spec h ptrs (readFormat tailRead items) { st with src := s₁ } x (args k) hws' hends
      hs₁
    have hpercent : ¬isspace (chr '%').toNat = true := by decide
    have hround : vscanLoop src ptrs (m + 1) { st with src := s₁ } (chr '%' :: x.read.code :: readFormat tailRead items) =
        vscanLoop src ptrs m ⟨s₂, storeWords ptrs args mem (k + 1), k + 1, int32 (k + 1 : ℕ)⟩
          (readFormat tailRead items) := by
      have hassigned : int32 (int32 k + 1) = int32 (k + 1 : ℕ) := Int.bmod_add_bmod
      rw [vscanLoop, if_neg hpercent, if_neg (not_not.mpr rfl), hitem]
      simp only [hst.mem, hst.ap, hst.assigned, hassigned]
      rfl
    have hnext : ScanState Holds ptrs args mem ⟨s₂, storeWords ptrs args mem (k + 1), k + 1, int32 (k + 1 : ℕ)⟩ (k + 1)
        ([] ++ (itemsText args tail (k + 1) items ++ after)) :=
      ⟨hs₂, rfl, rfl, by dsimp only⟩
    obtain ⟨hret, hmem⟩ := ih (n := m) (fun x hx => hgaps x (List.mem_of_mem_tail hx))
      (fun c hc => absurd hc List.not_mem_nil) hnext (by omega)
    have hcount : k + (x :: items).length = k + 1 + items.length := by
      rw [List.length_cons]
      omega
    rw [readFormat, hwhite, hround, hcount]
    exact ⟨hret, hmem⟩

end

/-! ### There and back -/

/-- The characters `text` stand in a buffer, with a NUL behind them. -/
def StringIn (b : Buf) (text : List UInt8) : Prop := firstBytes b text.length = text ∧ b text.length = 0 ∧ 0 ∉ text

theorem White.zero_not_mem (hws : White ws) : 0 ∉ ws := fun h => absurd (hws 0 h) (by decide)

theorem zero_not_mem_textOf (conv : IntConv) (word : UInt64) : 0 ∉ conv.textOf word := by
  obtain ⟨hfour, h16⟩ := conv.base_bounds
  rw [IntConv.textOf]
  intro hmem
  rcases List.mem_append.mp hmem with h | h
  · rw [minusText] at h
    split at h
    · exact absurd (List.mem_singleton.mp h) (by decide)
    · exact absurd h List.not_mem_nil
  · have hdigit := (digits_numeral (by omega) h16 _ _ 0 h).1
    have hnone : digitOf ((0 : UInt8).toNat : ℤ) = none := by decide
    rw [hnone] at hdigit
    cases hdigit

theorem zero_not_mem_itemsText (htail : White tail) : 0 ∉ itemsText args tail ap items := by
  induction items generalizing ap with
  | nil => exact htail.zero_not_mem
  | cons x items ih =>
    rw [itemsText]
    intro hmem
    rcases List.mem_append.mp hmem with h | h
    · exact x.white.zero_not_mem h
    · rcases List.mem_append.mp h with h | h
      · exact zero_not_mem_textOf _ _ h
      · exact ih h

/-- `sprintf` leaves the text of the list in its buffer, as `printf` sends it. -/
theorem sprintf_items (items : List Item) (args : ℕ → UInt64) (mem buf : Buf) (htail : White tail) :
    printed args mem (printFormat tail items) = itemsText args tail 0 items ∧
      ((itemsText args tail 0 items).length + 1 < 2 ^ 64 →
        ∃ buf', (sprintf args mem (some buf) (printFormat tail items)).2.sink.buf = some buf' ∧
          StringIn buf' (itemsText args tail 0 items)) := by
  have ho : ∀ s : Sink, s.len = 0 → (vfmt args ⟨s, mem, 0⟩ (printFormat tail items)).2.sink =
      sinkFlush (s.puts (itemsText args tail 0 items)) ∧ (vfmt args ⟨s, mem, 0⟩ (printFormat tail items)).1 =
        int32 ((itemsText args tail 0 items).length % 2 ^ 64 : ℕ) :=
    vfmt_of_loop fun s _ => vfmtLoop_items htail le_rfl
  refine ⟨(printf_of_uniform ho).1, fun hfits => ?_⟩
  obtain ⟨-, -, -, hbuffer⟩ := vfmtBuf_buffer (some buf) (2 ^ 64 - 1) ho (by omega)
  obtain ⟨buf', hbuf, -, hcells, hend⟩ := hbuffer buf rfl
  have hmin : min (2 ^ 64 - 1 - 1) (itemsText args tail 0 items).length = (itemsText args tail 0 items).length := by omega
  rw [hmin] at hcells hend
  refine ⟨buf', hbuf, ?_, hend (by decide), zero_not_mem_itemsText htail⟩
  have hsame := firstBytes_congr hcells
  rw [hsame]
  exact firstBytes_bufOf _

theorem int32_mod (k : ℕ) : int32 (k % 2 ^ 32 : ℕ) = int32 k := by
  rw [int32, int32, Int.natCast_mod, Int.emod_bmod]

/-- **Scanning undoes printing.**  A list of integers, printed by `sprintf` with white space between them, is read by
`sscanf` with one format, whatever white space there is before and behind it, and every argument is assigned as a number
of 32 bits, so as the `int` that it was. -/
theorem sscanf_sprintf (items : List Item) (hgaps : ∀ x ∈ items.tail, x.gap ≠ []) {tail tailRead : List UInt8}
    (htail : White tail) (htailRead : White tailRead) (args : ℕ → UInt64) (mem buf : Buf)
    (hfits : (printed args mem (printFormat tail items)).length + 1 < 2 ^ 64) (ptrs : ℕ → UInt64)
    (hapart : ∀ i < items.length, ∀ j < items.length, i ≠ j →
      (ptrs i).toNat + 4 ≤ (ptrs j).toNat ∨ (ptrs j).toNat + 4 ≤ (ptrs i).toNat) (mem' : Buf) :
    ∃ buf' text, (sprintf args mem (some buf) (printFormat tail items)).2.sink.buf = some buf' ∧ StringIn buf' text ∧
      ∀ before after, White before → White after →
        (sscanf ptrs mem' (before ++ text ++ after) (readFormat tailRead items)).1 = int32 items.length ∧
          ∀ i < items.length,
            loadLe (sscanf ptrs mem' (before ++ text ++ after) (readFormat tailRead items)).2.mem (ptrs i).toNat 4 =
                (args i).toNat % 2 ^ 32 ∧
              int32 (loadLe (sscanf ptrs mem' (before ++ text ++ after) (readFormat tailRead items)).2.mem
                (ptrs i).toNat 4) = argInt args i := by
  obtain ⟨hprinted, hstored⟩ := sprintf_items items args mem buf htail
  rw [hprinted] at hfits
  obtain ⟨buf', hbuf, htext⟩ := hstored hfits
  refine ⟨buf', _, hbuf, htext, fun before after hbefore hafter => ?_⟩
  have hstart : ScanState StrCtx.Holds ptrs args mem' ⟨⟨before ++ itemsText args tail 0 items ++ after, -1⟩, mem', 0, 0⟩ 0
      (before ++ (itemsText args tail 0 items ++ after)) :=
    ⟨.inl ⟨rfl, List.append_assoc ..⟩, rfl, rfl, rfl⟩
  obtain ⟨hret, hmem⟩ := vscanLoop_items strSrc_lawful hgaps htail htailRead hafter hbefore hstart le_rfl
  rw [Nat.zero_add] at hret hmem
  refine ⟨hret, fun i hi => ?_⟩
  have hload : loadLe (sscanf ptrs mem' (before ++ itemsText args tail 0 items ++ after)
      (readFormat tailRead items)).2.mem (ptrs i).toNat 4 = (args i).toNat % 2 ^ 32 := by
    show loadLe (vscanLoop strSrc ptrs _ _ _).2.mem _ 4 = _
    rw [hmem]
    exact loadLe_storeWords hapart hi
  refine ⟨hload, ?_⟩
  rw [hload, argInt, int32_mod]

/-- Printed with `"%d\t%X"` and read with `"%i %x"`. -/
def pairItems : List Item :=
  [⟨[], .d, [], .i, by decide, by decide, rfl⟩, ⟨[9], .X, [chr ' '], .x, by decide, by decide, rfl⟩]

/-- The least `int`, and a number in hexadecimal. -/
def pairArgs (i : ℕ) : UInt64 := if i = 0 then 2147483648 else 48879

def pairPtrs (i : ℕ) : UInt64 := if i = 0 then 4096 else 4100

example : printed pairArgs (fun _ => 0) (printFormat [] pairItems) =
    [chr '-', chr '2', chr '1', chr '4', chr '7', chr '4', chr '8', chr '3', chr '6', chr '4', chr '8', 9, chr 'B', chr 'E',
      chr 'E', chr 'F'] := by decide

theorem sscanf_sprintf_pair :
    ∃ buf' text, (sprintf pairArgs (fun _ => 0) (some fun _ => 1) (printFormat [] pairItems)).2.sink.buf = some buf' ∧
      StringIn buf' text ∧ ∀ before after, White before → White after →
        (sscanf pairPtrs (fun _ => 0) (before ++ text ++ after) (readFormat [10] pairItems)).1 =
            int32 pairItems.length ∧
          ∀ i < pairItems.length,
            loadLe (sscanf pairPtrs (fun _ => 0) (before ++ text ++ after) (readFormat [10] pairItems)).2.mem
                (pairPtrs i).toNat 4 = (pairArgs i).toNat % 2 ^ 32 ∧
              int32 (loadLe (sscanf pairPtrs (fun _ => 0) (before ++ text ++ after) (readFormat [10] pairItems)).2.mem
                (pairPtrs i).toNat 4) = argInt pairArgs i :=
  sscanf_sprintf pairItems (by decide) (by decide) (by decide) pairArgs (fun _ => 0) (fun _ => 1) (by decide)
    pairPtrs (by decide) (fun _ => 0)

end LizardOs.User
