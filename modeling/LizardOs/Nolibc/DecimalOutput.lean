import LizardOs.Nolibc.Directives

/-!
# Decimal output of the kernel

Whole calls of `kvprintf` and `sprintf` with a format of plain text and the directives `%d`, `%u`, `%c` and `%s`.  The
two agree: `kvprintf` prints what `sprintf` stores, and both return its length, as long as no argument of a `%d` is
`INT_MIN` (`agree_iff`).  Unsigned numbers come out exactly, and an `int` does unless it is `INT_MIN`
(`kernel_decimal_iff`).
-/

namespace LizardOs.Nolibc

open LizardOs.Lib LizardOs.User

/-- The directives that both functions have. -/
inductive Conv where
  | d
  | u
  | c
  | s
deriving DecidableEq

namespace Conv

def code : Conv → UInt8
  | d => chr 'd'
  | u => chr 'u'
  | c => chr 'c'
  | s => chr 's'

variable (args : ℕ → UInt64) (strs : UInt64 → List UInt8) (ap : ℕ)

/-- What comes out for the next argument. -/
def text : Conv → List UInt8
  | d => intText (argInt args ap)
  | u => numeral 10 false ((args ap).toNat % 2 ^ 32)
  | c => [(args ap).toUInt8]
  | s => strs (args ap)

/-- The argument is a byte other than 255, on which `kprint` stops, or a string without it. -/
def Sound : Conv → Prop
  | d => True
  | u => True
  | c => (args ap).toUInt8 ≠ 255
  | s => args ap ≠ 0 ∧ 255 ∉ strs (args ap)

end Conv

/-- Text that holds no `%`, and no byte on which `kprint` stops. -/
def Plain (t : List UInt8) : Prop := chr '%' ∉ t ∧ 255 ∉ t

instance (t : List UInt8) : Decidable (Plain t) := inferInstanceAs (Decidable (chr '%' ∉ t ∧ 255 ∉ t))

/-- A directive, and the plain text behind it. -/
abbrev Piece := Conv × List UInt8

/-- The format. -/
def formatOf (ps : List Piece) : List UInt8 := ps.flatMap fun p => chr '%' :: p.1.code :: p.2

section

variable (args : ℕ → UInt64) (strs : UInt64 → List UInt8)

/-- What comes out, with the arguments from `ap` on. -/
def textOf : ℕ → List Piece → List UInt8
  | _, [] => []
  | ap, p :: ps => p.1.text args strs ap ++ (p.2 ++ textOf (ap + 1) ps)

def Sound : ℕ → List Piece → Prop
  | _, [] => True
  | ap, p :: ps => p.1.Sound args strs ap ∧ Plain p.2 ∧ Sound (ap + 1) ps

/-- No argument of a `%d` is `INT_MIN`. -/
def NoMin : ℕ → List Piece → Prop
  | _, [] => True
  | ap, p :: ps => (p.1 = .d → argInt args ap ≠ INT_MIN) ∧ NoMin (ap + 1) ps

end

variable {args : ℕ → UInt64} {strs : UInt64 → List UInt8} {j : ℕ → Vector UInt8 20} {t format : List UInt8}
  {ps : List Piece} {k : Conv} {c : UInt8} {ap : ℕ}

theorem formatOf_head (ps : List Piece) : formatOf ps = [] ∨ (formatOf ps).head? = some (chr '%') := by
  cases ps with
  | nil => exact .inl rfl
  | cons p ps => exact .inr rfl

/-! ### `kvprintf` -/

/-- What a round leaves that prints plain text. -/
def Kv.addText (st : Kv) (t : List UInt8) : Kv :=
  { st with out := st.out ++ t, written := int32 (st.written + t.length) }

theorem Kv.maxrem_eq {st : Kv} (h0 : 0 ≤ st.written) (h : st.written ≤ INT_MAX) :
    (st.maxrem : ℤ) = INT_MAX - st.written := by
  rw [INT_MAX] at h ⊢
  rw [Kv.maxrem, INT_MAX, int32_small (by omega) (by omega)]
  omega

theorem written_eq {st : Kv} (h0 : 0 ≤ st.written) (h : st.written + t.length ≤ INT_MAX) :
    int32 (st.written + t.length) = st.written + t.length := by
  rw [INT_MAX] at h
  exact int32_small (by omega) (by omega)

theorem takeWhile_plain (ht : chr '%' ∉ t) (hf : format = [] ∨ format.head? = some (chr '%')) :
    (t ++ format).takeWhile (fun c => decide (c ≠ chr '%')) = t := by
  have hall : ∀ c ∈ t, decide (c ≠ chr '%') = true := by
    intro c hc
    apply decide_eq_true
    rintro rfl
    exact ht hc
  have hstop : format.takeWhile (fun c => decide (c ≠ chr '%')) = [] := by
    rcases hf with rfl | hf
    · rfl
    · obtain ⟨l, rfl⟩ := List.head?_eq_some_iff.mp hf
      exact List.takeWhile_cons_of_neg (by decide)
  rw [List.takeWhile_append_of_pos hall, hstop, List.append_nil]

/-- The loop prints plain text up to the next directive. -/
theorem kvRun_text (st : Kv) (ht : Plain t) (hf : format = [] ∨ format.head? = some (chr '%')) (h0 : 0 ≤ st.written)
    (hroom : st.written + t.length ≤ INT_MAX) :
    kvRun args strs st (t ++ format) = kvRun args strs (st.addText t) format := by
  cases t with
  | nil =>
    have hsame : st.addText [] = st := by
      rw [Kv.addText, written_eq h0 hroom, List.append_nil, List.length_nil, Nat.cast_zero, add_zero]
    rw [hsame, List.nil_append]
  | cons c t =>
    have hc : c ≠ chr '%' := (List.ne_of_not_mem_cons ht.1).symm
    have hmax := Kv.maxrem_eq h0 (by omega)
    have hlen : (c :: t).length = 1 + t.length := by rw [List.length_cons, Nat.add_comm]
    rw [List.cons_append]
    apply kvRun_next
    rw [kvRound, if_pos (.inl hc)]
    simp only [if_neg hc, List.tail_cons, takeWhile_plain (List.not_mem_of_not_mem_cons ht.1) hf]
    rw [if_neg (by omega), ← hlen, ← List.cons_append, List.take_left, List.drop_left, Kv.print, kprint_eq ht.2]
    rfl

/-- The loop prints what a directive stands for. -/
theorem kvRun_conv (st : Kv) (format : List UInt8) (hk : k.Sound args strs st.ap)
    (hmin : k = .d → argInt args st.ap ≠ INT_MIN) (h0 : 0 ≤ st.written)
    (hroom : st.written + (k.text args strs st.ap).length ≤ INT_MAX) :
    kvRun args strs st (chr '%' :: k.code :: format) = kvRun args strs (st.add (k.text args strs st.ap)) format := by
  have hmax := Kv.maxrem_eq h0 (by omega)
  cases k with
  | d =>
    obtain ⟨hlo, hhi⟩ := argInt_bounds args st.ap
    have hpos := numeral_length_pos (argInt args st.ap).natAbs
    rw [Conv.text, intText, List.length_append] at hroom
    exact kvRenders_of_ne (lt_of_le_of_ne hlo (Ne.symm (hmin rfl))) hhi args strs st format rfl (by omega)
  | u =>
    have hpos := numeral_length_pos ((args st.ap).toNat % 2 ^ 32)
    rw [Conv.text] at hroom
    apply kvRun_next
    rw [Conv.code, kvRound_directive (by decide), kvDirective_u, st.number_unsigned _ _ (by omega)]
    rfl
  | c =>
    have hplain : 255 ∉ [(args st.ap).toUInt8] := fun hmem => hk (List.mem_singleton.mp hmem).symm
    rw [Conv.text, List.length_singleton] at hroom
    apply kvRun_next
    rw [Conv.code, kvRound_directive (by decide), kvDirective_c _ _ (by omega), Kv.print, kprint_eq hplain]
    rfl
  | s =>
    rw [Conv.text] at hroom
    apply kvRun_next
    rw [Conv.code, kvRound_directive (by decide), kvDirective_s _ _ hk.1 (by omega), Kv.print, kprint_eq hk.2]
    rfl

/-- The loop prints the text of a format. -/
theorem kvRun_pieces (ps : List Piece) (st : Kv) (hps : Sound args strs st.ap ps) (hmin : NoMin args st.ap ps)
    (h0 : 0 ≤ st.written) (hroom : st.written + (textOf args strs st.ap ps).length ≤ INT_MAX) :
    kvRun args strs st (formatOf ps) =
      some (st.written + (textOf args strs st.ap ps).length, st.out ++ textOf args strs st.ap ps) := by
  induction ps generalizing st with
  | nil =>
    show some (st.written, st.out) = some (st.written + 0, st.out ++ [])
    rw [add_zero, List.append_nil]
  | cons p ps ih =>
    obtain ⟨hk, hplain, hrest⟩ := hps
    obtain ⟨hfirst, hmin⟩ := hmin
    rw [textOf, List.length_append, List.length_append, Nat.cast_add, Nat.cast_add] at hroom ⊢
    have hformat : formatOf (p :: ps) = chr '%' :: p.1.code :: (p.2 ++ formatOf ps) := rfl
    have hw₁ : (st.add (p.1.text args strs st.ap)).written = st.written + (p.1.text args strs st.ap).length :=
      written_eq h0 (by omega)
    have hw₂ : ((st.add (p.1.text args strs st.ap)).addText p.2).written =
        st.written + (p.1.text args strs st.ap).length + p.2.length := by
      rw [Kv.addText, written_eq (by omega) (by omega), hw₁]
    rw [hformat, kvRun_conv st _ hk hfirst h0 (by omega),
      kvRun_text _ hplain (formatOf_head ps) (by omega) (by omega)]
    have hend := ih ((st.add (p.1.text args strs st.ap)).addText p.2) hrest hmin (by omega) (by
      rw [hw₂]
      show st.written + (p.1.text args strs st.ap).length + p.2.length +
        (textOf args strs (st.ap + 1) ps).length ≤ INT_MAX
      omega)
    rw [hend, hw₂]
    simp only [Kv.addText, Kv.add, List.append_assoc, add_assoc]

/-! ### `sprintf` -/

theorem spLoop_char (st : Sp) (hc : c ≠ chr '%') (format : List UInt8) :
    spLoop args strs j (c :: format) st = spLoop args strs j format (st.putc c) := by
  cases format with
  | nil => exact if_neg hc
  | cons d format => exact if_neg hc

theorem spLoop_text (st : Sp) (ht : chr '%' ∉ t) (format : List UInt8) :
    spLoop args strs j (t ++ format) st = spLoop args strs j format (st.puts t) := by
  induction t generalizing st with
  | nil => rfl
  | cons c t ih =>
    rw [List.cons_append, spLoop_char st (List.ne_of_not_mem_cons ht).symm, ih _ (List.not_mem_of_not_mem_cons ht)]
    rfl

theorem spLoop_conv (st : Sp) (format : List UInt8) (hmin : k = .d → argInt args st.ap ≠ INT_MIN) :
    spLoop args strs j (chr '%' :: k.code :: format) st =
      spLoop args strs j format (st.add (k.text args strs st.ap)) := by
  cases k with
  | d => exact spLoop_d st format (hmin rfl)
  | u =>
    rw [Conv.code, spLoop, if_pos rfl, spDirective_u]
    rfl
  | c => rfl
  | s => rfl

/-- Where the argument is does not matter to what is stored. -/
theorem Sp.puts_ap (st : Sp) (n : ℕ) (t : List UInt8) :
    ({ st with ap := n } : Sp).puts t = { st.puts t with ap := n } := by
  induction t generalizing st with
  | nil => rfl
  | cons c t ih => exact ih (st.putc c)

theorem Sp.puts_append (st : Sp) (t t' : List UInt8) : st.puts (t ++ t') = (st.puts t).puts t' :=
  List.foldl_append ..

theorem Sp.add_puts (st : Sp) (text t : List UInt8) :
    (st.add text).puts t = { st.puts (text ++ t) with ap := st.ap + 1 } := by
  rw [Sp.add, ← Sp.puts_append, Sp.puts_ap]

theorem Sp.ap_puts (st : Sp) (t : List UInt8) : (st.puts t).ap = st.ap := by
  induction t generalizing st with
  | nil => rfl
  | cons c t ih => exact ih (st.putc c)

/-- The loop stores the text of a format. -/
theorem spLoop_pieces (ps : List Piece) (st : Sp) (hps : Sound args strs st.ap ps) (hmin : NoMin args st.ap ps) :
    spLoop args strs j (formatOf ps) st =
      some { st.puts (textOf args strs st.ap ps) with ap := st.ap + ps.length } := by
  induction ps generalizing st with
  | nil => rfl
  | cons p ps ih =>
    obtain ⟨-, hplain, hrest⟩ := hps
    obtain ⟨hfirst, hmin⟩ := hmin
    have hformat : formatOf (p :: ps) = chr '%' :: p.1.code :: (p.2 ++ formatOf ps) := rfl
    have hap : ((st.add (p.1.text args strs st.ap)).puts p.2).ap = st.ap + 1 := by
      rw [Sp.ap_puts, Sp.add, Sp.ap_puts]
    rw [hformat, spLoop_conv st _ hfirst, spLoop_text _ hplain.1,
      ih _ (by rw [hap]; exact hrest) (by rw [hap]; exact hmin), hap, textOf, ← Sp.puts_append, Sp.add_puts,
      List.length_cons, Nat.add_comm ps.length, ← Nat.add_assoc]

/-- With an `INT_MIN` for a `%d` a store leaves its array. -/
theorem spLoop_pieces_none (ps : List Piece) (st : Sp) (hps : Sound args strs st.ap ps)
    (hmin : ¬NoMin args st.ap ps) : spLoop args strs j (formatOf ps) st = none := by
  induction ps generalizing st with
  | nil => exact absurd trivial hmin
  | cons p ps ih =>
    obtain ⟨-, hplain, hrest⟩ := hps
    have hformat : formatOf (p :: ps) = chr '%' :: p.1.code :: (p.2 ++ formatOf ps) := rfl
    rw [hformat]
    by_cases hfirst : p.1 = .d → argInt args st.ap ≠ INT_MIN
    · have hap : ((st.add (p.1.text args strs st.ap)).puts p.2).ap = st.ap + 1 := by
        rw [Sp.ap_puts, Sp.add, Sp.ap_puts]
      rw [spLoop_conv st _ hfirst, spLoop_text _ hplain.1]
      refine ih _ (by rw [hap]; exact hrest) fun hno => hmin ⟨hfirst, ?_⟩
      rw [hap] at hno
      exact hno
    · obtain ⟨hd, hval⟩ := Classical.not_imp.mp hfirst
      rw [hd]
      exact spLoop_d_min st _ (not_not.mp hval)

theorem firstBytes_update (b : Buf) (n : ℕ) (c : UInt8) :
    firstBytes (Function.update b n c) (n + 1) = firstBytes b n ++ [c] := by
  rw [firstBytes, List.range_succ, List.map_append, List.map_singleton, Function.update_self, firstBytes]
  congr 1
  apply List.map_congr_left
  intro i hi
  exact Function.update_of_ne (Nat.ne_of_lt (List.mem_range.mp hi)) ..

theorem Sp.len_puts (st : Sp) (t : List UInt8) : (st.puts t).len = st.len + t.length := by
  induction t generalizing st with
  | nil => rfl
  | cons c t ih =>
    have hstep : (st.puts (c :: t)).len = (st.putc c).len + t.length := ih (st.putc c)
    rw [hstep, List.length_cons, Nat.add_comm t.length 1, ← Nat.add_assoc]
    rfl

/-- What is stored is behind what was there. -/
theorem Sp.firstBytes_puts (st : Sp) (t : List UInt8) :
    firstBytes (st.puts t).buffer (st.puts t).len = firstBytes st.buffer st.len ++ t := by
  induction t generalizing st with
  | nil => exact (List.append_nil _).symm
  | cons c t ih =>
    have hstep : firstBytes (st.putc c).buffer (st.putc c).len = firstBytes st.buffer st.len ++ [c] :=
      firstBytes_update st.buffer st.len c
    show firstBytes ((st.putc c).puts t).buffer ((st.putc c).puts t).len = _
    rw [ih, hstep, List.append_assoc]
    rfl

/-- A call of `sprintf` returns the length of a text, and leaves it in the buffer with a NUL. -/
def Stored (r : Option (ℤ × Buf)) (text : List UInt8) : Prop :=
  ∃ b, r = some ((text.length : ℤ), b) ∧ firstBytes b (text.length + 1) = text ++ [0]

/-! ### Whole calls -/

/-- `kvprintf` prints the text of a format. -/
theorem kvprintf_pieces (hhead : Plain t) (hps : Sound args strs 0 ps) (hmin : NoMin args 0 ps)
    (hroom : ((t ++ textOf args strs 0 ps).length : ℤ) ≤ INT_MAX) :
    kvprintf args strs (t ++ formatOf ps) =
      some (((t ++ textOf args strs 0 ps).length : ℤ), t ++ textOf args strs 0 ps) := by
  let st : Kv := ⟨[], 0, 0⟩
  have hlen : ((t ++ textOf args strs 0 ps).length : ℤ) = t.length + (textOf args strs 0 ps).length := by
    rw [List.length_append, Nat.cast_add]
  have hzero : st.written = 0 := rfl
  have hw : (st.addText t).written = t.length := by
    rw [Kv.addText, written_eq (by omega) (by omega), hzero, zero_add]
  have hps' : Sound args strs (st.addText t).ap ps := hps
  have hmin' : NoMin args (st.addText t).ap ps := hmin
  have hroom' : (st.addText t).written + (textOf args strs (st.addText t).ap ps).length ≤ INT_MAX := by
    rw [hw]
    show (t.length : ℤ) + (textOf args strs 0 ps).length ≤ INT_MAX
    omega
  have hend := kvRun_pieces ps (st.addText t) hps' hmin' (by omega) hroom'
  rw [kvprintf, kvRun_text st hhead (formatOf_head ps) (by omega) (by omega), hend, hw, hlen]
  rfl

/-- `sprintf` stores the text of a format. -/
theorem sprintf_pieces (junk : ℕ → Vector UInt8 20) (buffer : Buf) (hhead : Plain t) (hps : Sound args strs 0 ps)
    (hmin : NoMin args 0 ps) (hroom : ((t ++ textOf args strs 0 ps).length : ℤ) ≤ INT_MAX) :
    Stored (sprintf args strs junk (t ++ formatOf ps) buffer) (t ++ textOf args strs 0 ps) := by
  have hap : ((⟨buffer, 0, 0⟩ : Sp).puts t).ap = 0 := Sp.ap_puts _ _
  have hlen : ((⟨buffer, 0, 0⟩ : Sp).puts (t ++ textOf args strs 0 ps)).len = (t ++ textOf args strs 0 ps).length :=
    (Sp.len_puts _ _).trans (Nat.zero_add _)
  have hrun := spLoop_pieces (j := junk) ps ((⟨buffer, 0, 0⟩ : Sp).puts t) (by rw [hap]; exact hps)
    (by rw [hap]; exact hmin)
  have hbytes := Sp.firstBytes_puts ⟨buffer, 0, 0⟩ (t ++ textOf args strs 0 ps)
  have hint : int32 ((t ++ textOf args strs 0 ps).length : ℤ) = (t ++ textOf args strs 0 ps).length := by
    rw [INT_MAX] at hroom
    exact int32_small (by omega) (by omega)
  rw [hap, ← Sp.puts_append] at hrun
  rw [hlen] at hbytes
  refine ⟨Function.update ((⟨buffer, 0, 0⟩ : Sp).puts (t ++ textOf args strs 0 ps)).buffer
    (t ++ textOf args strs 0 ps).length 0, ?_, ?_⟩
  · rw [sprintf, spLoop_text _ hhead.1, hrun, Option.map_some]
    simp only [hlen, hint]
  · rw [firstBytes_update, hbytes]
    rfl

/-- **The two functions agree**: on plain text and the directives they share, `kvprintf` prints and `sprintf` stores the
same text, exactly if no argument of a `%d` is `INT_MIN`. -/
theorem agree_iff (junk : ℕ → Vector UInt8 20) (buffer : Buf) (hhead : Plain t) (hps : Sound args strs 0 ps)
    (hroom : ((t ++ textOf args strs 0 ps).length : ℤ) ≤ INT_MAX) :
    (kvprintf args strs (t ++ formatOf ps) =
        some (((t ++ textOf args strs 0 ps).length : ℤ), t ++ textOf args strs 0 ps) ∧
      Stored (sprintf args strs junk (t ++ formatOf ps) buffer) (t ++ textOf args strs 0 ps)) ↔ NoMin args 0 ps := by
  constructor
  · rintro ⟨-, b, hrun, -⟩
    by_contra hmin
    have hap : ((⟨buffer, 0, 0⟩ : Sp).puts t).ap = 0 := Sp.ap_puts _ _
    rw [sprintf, spLoop_text _ hhead.1,
      spLoop_pieces_none ps _ (by rw [hap]; exact hps) (by rw [hap]; exact hmin)] at hrun
    exact nomatch hrun
  · intro hmin
    exact ⟨kvprintf_pieces hhead hps hmin hroom, sprintf_pieces junk buffer hhead hps hmin hroom⟩

/-- **Kernel decimal output**: `unsigned_to_string` writes the decimal representation of every number, which is of the
length that `get_unsigned2string_final_size` returns; and `%d` comes out exactly from both functions, and whole calls of
them agree, if and only if its argument is not `INT_MIN`. -/
theorem kernel_decimal_iff {value : UInt64} {str : List UInt8} (hstr : getUnsigned2stringFinalSize value < str.length)
    (val : ℤ) (hlo : INT_MIN ≤ val) (hhi : val ≤ INT_MAX) (junk : ℕ → Vector UInt8 20) (buffer : Buf)
    (hhead : Plain t) (hps : Sound args strs 0 ps) (hroom : ((t ++ textOf args strs 0 ps).length : ℤ) ≤ INT_MAX) :
    unsignedToString value str =
      some (numeral 10 false value.toNat ++ 0 :: str.drop (getUnsigned2stringFinalSize value + 1)) ∧
    (IsDecimal (numeral 10 false value.toNat) value.toNat ∧
      (numeral 10 false value.toNat).length = getUnsigned2stringFinalSize value ∧
      getUnsigned2stringFinalSize value ≤ 20) ∧
    (KvRenders val ∧ SpRenders val ↔ val ≠ INT_MIN) ∧
    ((kvprintf args strs (t ++ formatOf ps) =
        some (((t ++ textOf args strs 0 ps).length : ℤ), t ++ textOf args strs 0 ps) ∧
      Stored (sprintf args strs junk (t ++ formatOf ps) buffer) (t ++ textOf args strs 0 ps)) ↔
      NoMin args 0 ps) := by
  refine ⟨unsignedToString_room hstr, ?_, renders_iff hlo hhi, agree_iff junk buffer hhead hps hroom⟩
  exact ⟨isDecimal_numeral value.toNat, (getUnsigned2stringFinalSize_eq value).symm, size_le value⟩

/-- The greatest number fills an array of 21 bytes, −42 comes out, and so does a format with it. -/
theorem kernel_decimal_at :
    unsignedToString 0xFFFFFFFFFFFFFFFF (List.replicate 21 7) = some (numeral 10 false (2 ^ 64 - 1) ++ [0]) ∧
      (KvRenders (-42) ∧ SpRenders (-42)) ∧
      (kvprintf (fun _ => 0xFFFFFFD6) (fun _ => []) ([chr 'a'] ++ formatOf [(.d, [chr 'b'])]) =
          some (5, [chr 'a'] ++ (intText (-42) ++ [chr 'b'])) ∧
        Stored (sprintf (fun _ => 0xFFFFFFD6) (fun _ => []) (fun _ => Vector.replicate 20 7)
          ([chr 'a'] ++ formatOf [(.d, [chr 'b'])]) fun _ => 7) ([chr 'a'] ++ (intText (-42) ++ [chr 'b']))) := by
  have hsize : getUnsigned2stringFinalSize 0xFFFFFFFFFFFFFFFF = 20 := by decide
  have hvalue : (0xFFFFFFFFFFFFFFFF : UInt64).toNat = 2 ^ 64 - 1 := by decide
  have hstr : getUnsigned2stringFinalSize 0xFFFFFFFFFFFFFFFF < (List.replicate 21 (7 : UInt8)).length := by
    rw [hsize]
    decide
  have harg : argInt (fun _ => 0xFFFFFFD6) 0 = -42 := by decide
  have htext : textOf (fun _ => 0xFFFFFFD6) (fun _ => []) 0 [(.d, [chr 'b'])] = intText (-42) ++ [chr 'b'] := by
    rw [textOf, Conv.text, harg]
    rfl
  have hps : Sound (fun _ => 0xFFFFFFD6) (fun _ => []) 0 [(.d, [chr 'b'])] := ⟨trivial, by decide, trivial⟩
  have hmin : NoMin (fun _ => 0xFFFFFFD6) 0 [(.d, [chr 'b'])] := by
    refine ⟨fun _ => ?_, trivial⟩
    rw [harg]
    decide
  have hhead : Plain [chr 'a'] := by decide
  have hlen : (([chr 'a'] ++ (intText (-42) ++ [chr 'b'])).length : ℤ) = 5 := by decide
  obtain ⟨hstring, -, hrenders, hcalls⟩ := kernel_decimal_iff hstr (-42) (by decide) (by decide)
    (fun _ => Vector.replicate 20 7) (fun _ => 7) hhead hps (by rw [htext, hlen]; decide)
  rw [hsize, hvalue] at hstring
  rw [htext, hlen] at hcalls
  exact ⟨hstring, hrenders.mpr (by decide), hcalls.mpr hmin⟩

/-- For `INT_MIN`, `kvprintf` prints another number and returns 21, and `sprintf` stores a byte behind its local buffer. -/
theorem decimal_min_wrong :
    kvprintf (fun _ => 0x80000000) (fun _ => []) [chr '%', chr 'd'] = some (21, renderedText INT_MIN) ∧
      renderedText INT_MIN = chr '-' :: numeral 10 false 18446744071562067968 ∧
      intText INT_MIN = chr '-' :: numeral 10 false 2147483648 ∧
      sprintf (fun _ => 0x80000000) (fun _ => []) (fun _ => Vector.replicate 20 0) [chr '%', chr 'd'] (fun _ => 0) = none ∧
      ¬KvRenders INT_MIN ∧ ¬SpRenders INT_MIN := by
  refine ⟨?_, by decide, by decide, ?_, ?_⟩
  · have hroom : Kv.maxrem ⟨[], 0, 0⟩ ≠ 0 := by decide
    have hrun : kvRun (fun _ => 0x80000000) (fun _ => []) ⟨[], 0, 0⟩ [chr '%', chr 'd'] =
        kvRun (fun _ => 0x80000000) (fun _ => [])
          (Kv.add ⟨[], 0, 0⟩ (renderedText (argInt (fun _ => 0x80000000) 0))) [] := kvRun_d ⟨[], 0, 0⟩ [] hroom
    rw [kvprintf, hrun, argInt_min, Kv.add, length_renderedText_min]
    rfl
  · have hnone : spLoop (fun _ => 0x80000000) (fun _ => []) (fun _ => Vector.replicate 20 0) [chr '%', chr 'd']
        ⟨fun _ => 0, 0, 0⟩ = none := spLoop_d_min ⟨fun _ => 0, 0, 0⟩ [] argInt_min
    rw [sprintf, hnone]
    rfl
  · exact ⟨not_kvRenders_min, not_spRenders_min⟩

end LizardOs.Nolibc
