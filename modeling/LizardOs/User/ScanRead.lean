import LizardOs.User.PrintfInteger
import LizardOs.User.Scanf

/-!
# Reading numbers

What the scanner does with a source that gives the characters of a list: white space is passed over, and the digits of a
number are read up to the character behind them, which is put back.  All of this is about any source that can put one
character back (`Src.Lawful`), as that of a string can.
-/

namespace LizardOs.User

open LizardOs.Lib

/-! ### Sources that give a list -/

/-- What `get` gives for the rest `l`. -/
def nextChar : List UInt8 → ℤ
  | [] => EOF
  | c :: _ => c.toNat

/-- `Holds s l`: what is left of the source is `l`.  `Fresh s l`: besides, there is room for a character to be put back. -/
structure Src.Lawful {σ : Type} (src : Src σ) (Fresh Holds : σ → List UInt8 → Prop) : Prop where
  fresh : ∀ {s l}, Fresh s l → Holds s l
  get : ∀ {s l}, Holds s l → ∃ s', src.get s = (nextChar l, s') ∧ Fresh s' l.tail
  unget : ∀ {s l}, Fresh s l.tail → Holds (src.unget s (nextChar l)) l
  left : ∀ {s l}, Holds s l → l.length ≤ src.left s

/-- The string source has nothing put back. -/
def StrCtx.Fresh (s : StrCtx) (l : List UInt8) : Prop := s.pushed = -1 ∧ s.p = l

/-- The rest of the string source, with the character that was put back. -/
def StrCtx.Holds (s : StrCtx) (l : List UInt8) : Prop := s.Fresh l ∨ ∃ c : UInt8, s.pushed = c.toNat ∧ l = c :: s.p

theorem strSrc_lawful : strSrc.Lawful StrCtx.Fresh StrCtx.Holds where
  fresh := Or.inl
  get := by
    rintro s l (⟨hpushed, hp⟩ | ⟨c, hpushed, hl⟩)
    · have hnone : ¬0 ≤ s.pushed := by omega
      show ∃ s', strGet s = (nextChar l, s') ∧ s'.Fresh l.tail
      rw [strGet, if_neg hnone, hp]
      cases l with
      | nil => exact ⟨s, rfl, hpushed, hp⟩
      | cons c l => exact ⟨_, rfl, hpushed, rfl⟩
    · have hsome : 0 ≤ s.pushed := by omega
      show ∃ s', strGet s = (nextChar l, s') ∧ s'.Fresh l.tail
      rw [strGet, if_pos hsome, hl, hpushed]
      exact ⟨_, rfl, rfl, rfl⟩
  unget := by
    rintro s l ⟨hpushed, hp⟩
    show StrCtx.Holds (strUnget s (nextChar l)) l
    cases l with
    | nil => exact .inl ⟨hpushed, hp⟩
    | cons c l =>
      have hchar : (c.toNat : ℤ) ≠ EOF := by
        rw [EOF]
        omega
      rw [strUnget, nextChar, if_pos hchar]
      exact .inr ⟨c, rfl, congrArg (c :: ·) hp.symm⟩
  left := by
    rintro s l (⟨-, hp⟩ | ⟨c, hpushed, hl⟩)
    · show l.length ≤ s.p.length + _
      rw [hp]
      exact Nat.le_add_right ..
    · show l.length ≤ s.p.length + if 0 ≤ s.pushed then 1 else 0
      rw [hl, if_pos (by omega)]
      exact le_rfl

/-! ### White space and digits -/

/-- White space. -/
def White (ws : List UInt8) : Prop := ∀ c ∈ ws, isspace c.toNat = true

instance (ws : List UInt8) : Decidable (White ws) := List.decidableBAll (fun c : UInt8 => isspace c.toNat = true) ws

/-- Digits of numbers to the base `b`. -/
def Digits (b : ℕ) (ds : List UInt8) : Prop := ∀ c ∈ ds, digitOf c.toNat = some (digitValue c : ℤ) ∧ digitValue c < b

/-- A number ends before `l`: there is white space, or the end. -/
def EndsNumber (l : List UInt8) : Prop := l = [] ∨ ∃ c l', l = c :: l' ∧ isspace c.toNat = true

theorem EndsNumber.char {l : List UInt8} (h : EndsNumber l) :
    digitOf (nextChar l) = none ∧ nextChar l ≠ (chr 'x').toNat ∧ nextChar l ≠ (chr 'X').toNat := by
  obtain rfl | ⟨c, l', rfl, hc⟩ := h
  · decide
  · have hall : ∀ c : Fin 256, isspace c.val = true →
        digitOf c.val = none ∧ (c.val : ℤ) ≠ (chr 'x').toNat ∧ (c.val : ℤ) ≠ (chr 'X').toNat := by
      decide +kernel
    exact hall ⟨c.toNat, c.toNat_lt⟩ hc

section

variable {σ : Type} {src : Src σ} {Fresh Holds : σ → List UInt8 → Prop} {s : σ} {ws ds l : List UInt8} {n b w : ℕ}
  {width : ℤ}

/-- White space is passed over, up to the next character. -/
theorem skipSpaces_spec (h : src.Lawful Fresh Holds) (hws : White ws) (hl : isspace (nextChar l) = false)
    (hs : Holds s (ws ++ l)) (hn : ws.length ≤ n) :
    ∃ s', skipSpaces src n s = (nextChar l, s') ∧ Fresh s' l.tail := by
  induction ws generalizing s n with
  | nil =>
    obtain ⟨s', hget, hfresh⟩ := h.get hs
    refine ⟨s', ?_, hfresh⟩
    rw [List.nil_append] at hget
    cases n with
    | zero => exact hget
    | succ n =>
      rw [skipSpaces, hget]
      exact if_neg (by rw [hl]; exact Bool.false_ne_true)
  | cons c ws ih =>
    obtain ⟨n, rfl⟩ : ∃ m, n = m + 1 := ⟨n - 1, by rw [List.length_cons] at hn; omega⟩
    obtain ⟨s₁, hget, hfresh⟩ := h.get hs
    obtain ⟨s', hskip, hfresh'⟩ := ih (fun c hc => hws c (List.mem_cons_of_mem _ hc)) (h.fresh hfresh)
      (Nat.le_of_succ_le_succ hn)
    refine ⟨s', ?_, hfresh'⟩
    rw [skipSpaces, hget]
    exact (if_pos (hws c List.mem_cons_self)).trans hskip

theorem le_numeralValue (hb : 1 ≤ b) : w ≤ numeralValue b w ds := by
  induction ds generalizing w with
  | nil => exact le_rfl
  | cons c ds ih =>
    have hw : w * 1 ≤ w * b := Nat.mul_le_mul_left w hb
    have hrest : w * b + digitValue c ≤ numeralValue b (w * b + digitValue c) ds := ih
    show w ≤ numeralValue b (w * b + digitValue c) ds
    omega

theorem int64_natCast {k : ℕ} (hk : k < 2 ^ 63) : int64 k = k := by
  rw [int64]
  exact Int.bmod_eq_of_le (by omega) (by omega)

theorem scanNumber_stop (hl : EndsNumber l) {any : Bool} {val : ℤ} :
    scanNumber src b n width (nextChar l) s val any = (val, any, nextChar l, s) := by
  cases n with
  | zero => rfl
  | succ n =>
    rw [scanNumber, hl.char.1]
    exact ite_self _

/-- One digit more. -/
theorem scanNumber_digit {c : UInt8} {c' : ℤ} {s' : σ} {any : Bool} (hdigit : digitOf c.toNat = some (digitValue c : ℤ))
    (hlt : digitValue c < b) (hvalue : w * b + digitValue c < 2 ^ 63) (hget : src.get s = (c', s')) (hwidth : 0 < width) :
    scanNumber src b (n + 1) width c.toNat s w any =
      scanNumber src b n (width - 1) c' s' (w * b + digitValue c : ℕ) true := by
  have hmul : int64 ((w : ℤ) * b) = ((w * b : ℕ) : ℤ) := by
    rw [← Int.natCast_mul]
    exact int64_natCast (by omega)
  have hacc : int64 (int64 ((w : ℤ) * b) + digitValue c) = ((w * b + digitValue c : ℕ) : ℤ) := by
    rw [hmul, ← Int.natCast_add]
    exact int64_natCast hvalue
  have hbase : ¬(b : ℤ) ≤ digitValue c := by omega
  rw [scanNumber, if_pos hwidth, hdigit]
  simp only [if_neg hbase, hget, hacc]

/-- The digits are read up to the character behind them. -/
theorem scanNumber_spec (h : src.Lawful Fresh Holds) {c : UInt8} (any : Bool) (hb : 1 ≤ b) (hds : Digits b (c :: ds))
    (hl : EndsNumber l) (hvalue : numeralValue b w (c :: ds) < 2 ^ 63) (hs : Holds s (ds ++ l)) (hn : ds.length < n)
    (hwidth : ds.length < width) :
    ∃ s', scanNumber src b n width c.toNat s w any = ((numeralValue b w (c :: ds) : ℤ), true, nextChar l, s') ∧
      Fresh s' l.tail := by
  induction ds generalizing c s n w width any with
  | nil =>
    obtain ⟨n, rfl⟩ : ∃ m, n = m + 1 := ⟨n - 1, by omega⟩
    obtain ⟨hdigit, hlt⟩ := hds c List.mem_cons_self
    obtain ⟨s₁, hget, hfresh⟩ := h.get hs
    have hwidth : (0 : ℤ) < width := hwidth
    exact ⟨s₁, (scanNumber_digit hdigit hlt hvalue hget hwidth).trans (scanNumber_stop hl), hfresh⟩
  | cons d ds ih =>
    rw [List.length_cons] at hn hwidth
    obtain ⟨n, rfl⟩ : ∃ m, n = m + 1 := ⟨n - 1, by omega⟩
    obtain ⟨hdigit, hlt⟩ := hds c List.mem_cons_self
    obtain ⟨s₁, hget, hfresh⟩ := h.get hs
    have hle : w * b + digitValue c ≤ numeralValue b w (c :: d :: ds) := le_numeralValue hb
    obtain ⟨s', hrest, hfresh'⟩ : ∃ s', scanNumber src b n (width - 1) d.toNat s₁ (w * b + digitValue c : ℕ) true =
        ((numeralValue b (w * b + digitValue c) (d :: ds) : ℤ), true, nextChar l, s') ∧ Fresh s' l.tail :=
      ih true (fun c hc => hds c (List.mem_cons_of_mem _ hc)) hvalue (h.fresh hfresh) (by omega) (by omega)
    exact ⟨s', (scanNumber_digit hdigit hlt (hle.trans_lt hvalue) hget (by omega)).trans hrest, hfresh'⟩

/-! ### The parts of an integer -/

/-- The base of a conversion. -/
def scanBase (conv : UInt8) : ℕ := if conv = chr 'x' then 16 else if conv = chr 'o' then 8 else 10

/-- The text of a sign. -/
def minusText (negative : Bool) : List UInt8 := if negative then [chr '-'] else []

theorem Digits.head {c : UInt8} (hds : Digits b (c :: ds)) :
    isspace c.toNat = false ∧ (c.toNat : ℤ) ≠ (chr '+').toNat ∧ (c.toNat : ℤ) ≠ (chr '-').toNat := by
  have hall : ∀ c : Fin 256, digitOf c.val ≠ none →
      isspace c.val = false ∧ (c.val : ℤ) ≠ (chr '+').toNat ∧ (c.val : ℤ) ≠ (chr '-').toNat := by
    decide +kernel
  refine hall ⟨c.toNat, c.toNat_lt⟩ fun hnone => ?_
  have hdigit : digitOf c.toNat = none := hnone
  rw [(hds c List.mem_cons_self).1] at hdigit
  cases hdigit

theorem nextChar_number {c : UInt8} (negative : Bool) (hds : Digits b (c :: ds)) (l : List UInt8) :
    isspace (nextChar (minusText negative ++ (c :: ds ++ l))) = false := by
  cases negative with
  | false => exact hds.head.1
  | true => rfl

theorem scanSign_spec (h : src.Lawful Fresh Holds) {c : UInt8} (width : ℤ) (negative : Bool) (hds : Digits b (c :: ds))
    (hs : Fresh s (minusText negative ++ (c :: ds ++ l)).tail) :
    ∃ width' s', scanSign src width (nextChar (minusText negative ++ (c :: ds ++ l))) s =
        (negative, width', (c.toNat : ℤ), s') ∧ Fresh s' (ds ++ l) ∧ width - 1 ≤ width' := by
  obtain ⟨-, hplus, hminus⟩ := hds.head
  cases negative with
  | false =>
    refine ⟨width, s, ?_, hs, by omega⟩
    show scanSign src width c.toNat s = _
    rw [scanSign, if_neg (not_or.mpr ⟨hplus, hminus⟩)]
  | true =>
    obtain ⟨s₁, hget, hfresh⟩ := h.get (h.fresh hs)
    have hget : src.get s = ((c.toNat : ℤ), s₁) := hget
    refine ⟨width - 1, s₁, ?_, hfresh, le_rfl⟩
    show scanSign src width (chr '-').toNat s = _
    rw [scanSign, if_pos (.inr rfl), hget]
    rfl

/-- No number begins with a zero but 0 itself, so the look for a prefix finds none. -/
theorem scanPrefix_spec (h : src.Lawful Fresh Holds) {c conv : UInt8} (width : ℤ) (hds : Digits (scanBase conv) (c :: ds))
    (hzero : c = chr '0' → ds = []) (hl : EndsNumber l) (hs : Fresh s (ds ++ l)) :
    ∃ (b : ℕ) (s' : σ), scanPrefix src conv (scanBase conv) width c.toNat s = ((b : ℤ), width, (c.toNat : ℤ), s') ∧
      Holds s' (ds ++ l) ∧ 1 ≤ b ∧ Digits b (c :: ds) ∧
      numeralValue b 0 (c :: ds) = numeralValue (scanBase conv) 0 (c :: ds) := by
  have hbase : 1 ≤ scanBase conv := by
    rw [scanBase]
    split
    · decide
    · split
      · decide
      · decide
  by_cases hprefix : (conv = chr 'i' ∨ conv = chr 'x') ∧ (c.toNat : ℤ) = (chr '0').toNat
  · have hc : c = chr '0' := UInt8.toNat_inj.mp (Int.ofNat.inj hprefix.2)
    obtain rfl := hzero hc
    subst hc
    obtain ⟨s₁, hget, hfresh⟩ := h.get (h.fresh hs)
    have hget : src.get s = (nextChar l, s₁) := hget
    obtain ⟨-, hx, hX⟩ := hl.char
    refine ⟨if conv = chr 'i' then 8 else scanBase conv, src.unget s₁ (nextChar l), ?_, h.unget hfresh, ?_, ?_, ?_⟩
    · rw [scanPrefix, if_pos hprefix, hget]
      simp only [if_neg (not_or.mpr ⟨hx, hX⟩), Nat.cast_ite]
      rfl
    · split
      · decide
      · exact hbase
    · intro c hc
      rw [List.mem_singleton.mp hc]
      refine ⟨by decide, ?_⟩
      have hvalue : digitValue (chr '0') = 0 := by decide
      rw [hvalue]
      split
      · decide
      · exact hbase
    · have hvalue : ∀ b, numeralValue b 0 [chr '0'] = 0 := by
        intro b
        show 0 * b + digitValue (chr '0') = 0
        rw [Nat.zero_mul]
        decide
      rw [hvalue, hvalue]
  · exact ⟨scanBase conv, s, if_neg hprefix, h.fresh hs, hbase, hds, rfl⟩

/-! ### An integer -/

variable {st : Scan σ}

/-- What is assigned. -/
def signedValue (negative : Bool) (v : ℕ) : ℤ := if negative then -v else v

/-- The state after a value was assigned. -/
def Scan.assign (args : ℕ → UInt64) (st : Scan σ) (s : σ) (v : ℤ) : Scan σ where
  src := s
  mem := storeLe st.mem (args st.ap).toNat 4 (v % 2 ^ 32).toNat
  ap := st.ap + 1
  assigned := int32 (st.assigned + 1)

/-- **Reading an integer**: white space, a sign and digits, up to white space or the end. -/
theorem scanInt_spec (h : src.Lawful Fresh Holds) (args : ℕ → UInt64) {c conv : UInt8} (negative : Bool) (hws : White ws)
    (hds : Digits (scanBase conv) (c :: ds)) (hzero : c = chr '0' → ds = []) (hl : EndsNumber l)
    (hvalue : numeralValue (scanBase conv) 0 (c :: ds) < 2 ^ 63) (hlen : ds.length + 1 < 2 ^ 40)
    (hs : Holds st.src (ws ++ (minusText negative ++ (c :: ds ++ l)))) :
    ∃ s', Holds s' l ∧ scanInt src args conv SCAN_WIDTH false st =
      (none, st.assign args s' (signedValue negative (numeralValue (scanBase conv) 0 (c :: ds)))) := by
  have hleft : ws.length ≤ src.left st.src := by
    have hall := h.left hs
    rw [List.length_append] at hall
    omega
  obtain ⟨s₁, hskip, hs₁⟩ := skipSpaces_spec h hws (nextChar_number negative hds l) hs hleft
  obtain ⟨width, s₂, hsign, hs₂, hwidth⟩ := scanSign_spec h SCAN_WIDTH negative hds hs₁
  obtain ⟨b, s₃, hprefix, hs₃, hb, hdigits, hsame⟩ := scanPrefix_spec h width hds hzero hl hs₂
  have hroom : ds.length < src.left s₃ + 1 := by
    have hall := h.left hs₃
    rw [List.length_append] at hall
    omega
  have hwide : (ds.length : ℤ) < width := by
    rw [SCAN_WIDTH] at hwidth
    omega
  rw [← hsame] at hvalue
  obtain ⟨s₄, hnumber, hs₄⟩ := scanNumber_spec h false hb hdigits hl hvalue hs₃ hroom hwide
  have hbase : (if conv = chr 'x' then (16 : ℤ) else if conv = chr 'o' then 8 else 10) = (scanBase conv : ℤ) := by
    rw [scanBase]
    split
    · rfl
    · split
      · rfl
      · rfl
  refine ⟨src.unget s₄ (nextChar l), h.unget hs₄, ?_⟩
  rw [scanInt, hbase]
  have hnumber : scanNumber src b (src.left s₃ + 1) width c.toNat s₃ 0 false =
    ((numeralValue b 0 (c :: ds) : ℤ), true, nextChar l, s₄) := hnumber
  simp only [hskip, hsign, hprefix, hnumber, hsame]
  rfl

end

end LizardOs.User
