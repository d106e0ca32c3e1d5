import LizardOs.User.Printf

/-!
# What a sink receives

Every conversion puts characters one after the other, and which ones does not depend on the sink.  So a buffer that is
too small receives the beginning of the output, and a descriptor all of it, in chunks (`printf_truncated`).
-/

namespace LizardOs.User

open LizardOs.Lib

variable {s s' : Sink} {o o' : List UInt8} {c : UInt8} {args : ℕ → UInt64} {fmt : List UInt8} {mem : Buf} {n ap k : ℕ}

/-! ### Characters one after the other -/

/-- Put the characters of a list. -/
def Sink.puts (s : Sink) (o : List UInt8) : Sink := o.foldl sinkPutc s

@[simp] theorem puts_nil (s : Sink) : s.puts [] = s := rfl

theorem puts_append (s : Sink) (o o' : List UInt8) : (s.puts o).puts o' = s.puts (o ++ o') :=
  (List.foldl_append ..).symm

theorem sinkPutc_eq (s : Sink) (c : UInt8) : sinkPutc s c = s.puts [c] := rfl

theorem firstBytes_succ (b : Buf) (n : ℕ) : firstBytes b (n + 1) = firstBytes b n ++ [b n] := by
  rw [firstBytes, firstBytes, List.range_succ, List.map_append]
  rfl

theorem sinkWrite_eq (s : Sink) (p : Buf) (n : ℕ) : sinkWrite s p n = s.puts (firstBytes p n) := by
  rw [sinkWrite]
  induction n with
  | zero => rfl
  | succ n ih =>
    rw [forLoop, ih, firstBytes_succ, ← puts_append]
    rfl

theorem sinkPad_eq (s : Sink) (c : UInt8) (n : ℤ) : sinkPad s c n = s.puts (List.replicate n.toNat c) := by
  rw [sinkPad]
  induction n.toNat with
  | zero => rfl
  | succ k ih =>
    rw [forLoop, ih, List.replicate_succ', ← puts_append]
    rfl

theorem firstBytes_bufOf (l : List UInt8) : firstBytes (bufOf l) l.length = l := by
  apply List.ext_getElem?
  intro j
  by_cases hj : j < l.length
  · rw [firstBytes_get? hj, bufOf, List.getD_eq_getElem?_getD, List.getElem?_eq_getElem hj]
    rfl
  · rw [List.getElem?_eq_none (by rw [firstBytes_length]; omega), List.getElem?_eq_none (by omega)]

/-- A step that is skipped puts nothing. -/
theorem ite_puts (p : Prop) [Decidable p] (s : Sink) (o : List UInt8) :
    (if p then s.puts o else s) = s.puts (if p then o else []) := by
  split
  · rfl
  · rfl

theorem puts_len (s : Sink) (o : List UInt8) (hs : s.len < 2 ^ 64) : (s.puts o).len = (s.len + o.length) % 2 ^ 64 := by
  induction o generalizing s with
  | nil => exact (Nat.mod_eq_of_lt hs).symm
  | cons c o ih =>
    have hlen : (sinkPutc s c).len = (s.len + 1) % 2 ^ 64 := rfl
    show ((sinkPutc s c).puts o).len = _
    rw [ih _ (by rw [hlen]; exact Nat.mod_lt _ (by decide)), hlen, List.length_cons]
    omega

/-! ### The conversions -/

/-- The text of `%d` and `%i`. -/
def signedText (f : Flags) (width prec v : ℤ) : List UInt8 :=
  let mag := if v < 0 then (-(v + 1)).toNat + 1 else v.toNat
  let sign := if v < 0 then chr '-' else if f.plus then chr '+' else if f.space then chr ' ' else 0
  let numbuf := uToStr mag 10 false
  let nl : ℤ := numbuf.length
  let zpad := if 0 ≤ prec ∧ nl < prec then prec - nl else 0
  let body := int32 (nl + zpad + if sign ≠ 0 then 1 else 0)
  let wpad := if body < width then int32 (width - body) else 0
  (if !f.left && !f.zero then List.replicate wpad.toNat (chr ' ') else []) ++ (if sign ≠ 0 then [sign] else []) ++
    (if !f.left && f.zero && decide (prec < 0) then List.replicate wpad.toNat (chr '0') else []) ++
    List.replicate zpad.toNat (chr '0') ++ numbuf ++ if f.left then List.replicate wpad.toNat (chr ' ') else []

theorem convSigned_eq (f : Flags) (width prec v : ℤ) (s : Sink) :
    convSigned f width prec v s = s.puts (signedText f width prec v) := by
  rw [convSigned, signedText]
  simp only [sinkPad_eq, sinkPutc_eq, sinkWrite_eq, firstBytes_bufOf, ite_puts]
  simp only [puts_append]

/-- The prefix of `%x` and `%X`. -/
def prefixText (conv : UInt8) (f : Flags) (v : ℕ) : List UInt8 :=
  if f.alt = true ∧ (conv = chr 'x' ∨ conv = chr 'X') ∧ v ≠ 0 then
    (if conv = chr 'x' then [chr '0', chr 'x'] else [chr '0', chr 'X'])
  else []

/-- The base of an unsigned conversion. -/
def baseOf (conv : UInt8) : ℕ := if conv = chr 'o' then 8 else if conv = chr 'u' then 10 else 16

/-- The text of `%u`, `%o`, `%x` and `%X`. -/
def unsignedText (conv : UInt8) (f : Flags) (width prec : ℤ) (v : ℕ) : List UInt8 :=
  let numbuf := uToStr v (baseOf conv) (conv = chr 'X')
  let nl : ℤ := numbuf.length
  let plen : ℤ := (prefixText conv f v).length
  let zpad := if 0 ≤ prec ∧ nl < prec then prec - nl else 0
  let body := int32 (nl + zpad + plen)
  let wpad := if body < width then int32 (width - body) else 0
  (if !f.left && !f.zero then List.replicate wpad.toNat (chr ' ') else []) ++ prefixText conv f v ++
    (if !f.left && f.zero && decide (prec < 0) then List.replicate wpad.toNat (chr '0') else []) ++
    List.replicate zpad.toNat (chr '0') ++ numbuf ++ if f.left then List.replicate wpad.toNat (chr ' ') else []

theorem convUnsigned_eq (conv : UInt8) (f : Flags) (width prec : ℤ) (v : ℕ) (s : Sink) :
    convUnsigned conv f width prec v s = s.puts (unsignedText conv f width prec v) := by
  rw [convUnsigned, unsignedText]
  simp only [sinkPad_eq, sinkWrite_eq, firstBytes_bufOf, ite_puts]
  simp only [puts_append, baseOf, prefixText]
  rfl

/-- A part of a conversion that puts the same characters into every sink. -/
def Puts (run : Sink → Sink) : Prop := ∃ o, ∀ s, run s = s.puts o

theorem Puts.comp {run run' : Sink → Sink} (h : Puts run) (h' : Puts run') : Puts fun s => run' (run s) := by
  obtain ⟨o, ho⟩ := h
  obtain ⟨o', ho'⟩ := h'
  exact ⟨o ++ o', fun s => by simp only [ho', ho, puts_append]⟩

theorem Puts.ite {run : Sink → Sink} (h : Puts run) (p : Prop) [Decidable p] :
    Puts fun s => if p then run s else s := by
  obtain ⟨o, ho⟩ := h
  exact ⟨if p then o else [], fun s => by simp only [ho, ite_puts]⟩

theorem puts_pad (c : UInt8) (n : ℤ) : Puts fun s => sinkPad s c n := ⟨_, fun s => sinkPad_eq s c n⟩

theorem puts_write (p : Buf) (n : ℕ) : Puts fun s => sinkWrite s p n := ⟨_, fun s => sinkWrite_eq s p n⟩

theorem puts_putc (c : UInt8) : Puts fun s => sinkPutc s c := ⟨[c], fun _ => rfl⟩

theorem puts_convChar (f : Flags) (width : ℤ) (c : UInt8) : Puts (convChar f width c) :=
  (((puts_pad _ _).ite _).comp (puts_putc c)).comp ((puts_pad _ _).ite _)

theorem puts_convString (f : Flags) (width prec : ℤ) (p : Buf) : Puts (convString f width prec p) :=
  (((puts_pad _ _).ite _).comp (puts_write p _)).comp ((puts_pad _ _).ite _)

theorem puts_convPointer (f : Flags) (width : ℤ) (ptr : ℕ) : Puts (convPointer f width ptr) :=
  ((((puts_pad _ _).ite _).comp (puts_write _ _)).comp (puts_write _ _)).comp ((puts_pad _ _).ite _)

/-! ### The whole format -/

/-- What is put, and the memory and the next argument after it, are the same for all sinks with `k` characters so far. -/
def Uniform (run : Fmt → Fmt) (mem : Buf) (ap k : ℕ) : Prop :=
  ∃ o mem' ap', ∀ s : Sink, s.len = k → run ⟨s, mem, ap⟩ = ⟨s.puts o, mem', ap'⟩

theorem convert_uniform (f : Flags) (width prec : ℤ) (lng : ℕ) (conv : UInt8) :
    Uniform (convert args f width prec lng conv) mem ap k := by
  unfold Uniform convert
  split
  · exact ⟨_, mem, ap + 1, fun s _ => by simp only [convSigned_eq]; rfl⟩
  split
  · exact ⟨_, mem, ap + 1, fun s _ => by simp only [convUnsigned_eq]; rfl⟩
  split
  · obtain ⟨o, ho⟩ := puts_convChar f width (UInt8.ofNat (args ap).toNat)
    exact ⟨o, mem, ap + 1, fun s _ => by simp only [ho]⟩
  split
  · obtain ⟨o, ho⟩ := puts_convString f width prec
      (if (args ap).toNat = 0 then bufOf nullText else fun i => mem ((args ap).toNat + i))
    exact ⟨o, mem, ap + 1, fun s _ => by simp only [ho]⟩
  split
  · obtain ⟨o, ho⟩ := puts_convPointer f width (args ap).toNat
    exact ⟨o, mem, ap + 1, fun s _ => by simp only [ho]⟩
  split
  · -- the count that is stored is that of the characters so far
    exact ⟨[], if (args ap).toNat ≠ 0 then storeLe mem (args ap).toNat 4 k else mem, ap + 1,
      fun s hs => by simp only [puts_nil, hs]⟩
  split
  · exact ⟨_, mem, ap, fun s _ => by simp only [sinkPutc_eq]; rfl⟩
  · exact ⟨_, mem, ap, fun s _ => by simp only [sinkPutc_eq, puts_append]; rfl⟩

/-- A directive reads its parts from the format and the arguments alone. -/
theorem directive_uniform (fmt : List UInt8) :
    ∃ rest, (∀ st : Fmt, st.ap = ap → (directive args st fmt).2 = rest) ∧
      Uniform (fun st => (directive args st fmt).1) mem ap k := by
  set p₁ := parseFlags fmt noFlags with hp₁
  set p₂ := parseWidth args ap p₁.1 p₁.2 with hp₂
  set p₃ := parsePrec args p₂.2.2.1 p₂.2.2.2 with hp₃
  set p₄ := scanLength p₃.2.2 0 with hp₄
  cases hrest : p₄.2 with
  | nil =>
    have hdirective : ∀ st : Fmt, st.ap = ap → directive args st fmt = ({ st with ap := p₃.2.1 }, []) := by
      rintro st rfl
      rw [directive]
      simp only []
      rw [hrest]
    refine ⟨[], fun st hst => by rw [hdirective st hst], [], mem, p₃.2.1, fun s _ => ?_⟩
    simp only [hdirective ⟨s, mem, ap⟩ rfl, puts_nil]
  | cons conv rest =>
    have hdirective : ∀ st : Fmt, st.ap = ap → directive args st fmt =
        (convert args p₂.1 p₂.2.1 p₃.1 (min p₄.1 2) conv { st with ap := p₃.2.1 }, rest) := by
      rintro st rfl
      rw [directive]
      simp only []
      rw [hrest]
    have huniform : Uniform (convert args p₂.1 p₂.2.1 p₃.1 (min p₄.1 2) conv) mem p₃.2.1 k := convert_uniform ..
    obtain ⟨o, mem', ap', ho⟩ := huniform
    refine ⟨rest, fun st hst => by rw [hdirective st hst], o, mem', ap', fun s hs => ?_⟩
    simp only [hdirective ⟨s, mem, ap⟩ rfl]
    exact ho s hs

/-- **The output does not depend on the sink.** -/
theorem vfmtLoop_uniform (n : ℕ) (hk : k < 2 ^ 64) : Uniform (fun st => vfmtLoop args n st fmt) mem ap k := by
  induction n generalizing fmt mem ap k with
  | zero => exact ⟨[], mem, ap, fun s _ => rfl⟩
  | succ n ih =>
    cases fmt with
    | nil => exact ⟨[], mem, ap, fun s _ => rfl⟩
    | cons c fmt =>
      -- one round, and then the rest from the number of characters after it
      have hround : ∃ rest o mem₁ ap₁, ∀ s : Sink, s.len = k →
          vfmtLoop args (n + 1) ⟨s, mem, ap⟩ (c :: fmt) = vfmtLoop args n ⟨s.puts o, mem₁, ap₁⟩ rest := by
        by_cases hc : c ≠ chr '%'
        · refine ⟨fmt, [c], mem, ap, fun s _ => ?_⟩
          rw [vfmtLoop, if_pos hc, sinkPutc_eq]
        · have huniform : ∃ rest, (∀ st : Fmt, st.ap = ap → (directive args st fmt).2 = rest) ∧
            Uniform (fun st => (directive args st fmt).1) mem ap k := directive_uniform fmt
          obtain ⟨rest, hrest, o, mem₁, ap₁, ho⟩ := huniform
          refine ⟨rest, o, mem₁, ap₁, fun s hs => ?_⟩
          rw [vfmtLoop, if_neg hc]
          have hst : (directive args ⟨s, mem, ap⟩ fmt).1 = ⟨s.puts o, mem₁, ap₁⟩ := ho s hs
          show vfmtLoop args n (directive args ⟨s, mem, ap⟩ fmt).1 (directive args ⟨s, mem, ap⟩ fmt).2 = _
          rw [hrest _ rfl, hst]
      obtain ⟨rest, o, mem₁, ap₁, ho⟩ := hround
      have huniform : Uniform (fun st => vfmtLoop args n st rest) mem₁ ap₁ ((k + o.length) % 2 ^ 64) :=
        ih (Nat.mod_lt _ (by decide))
      obtain ⟨o', mem₂, ap₂, ho'⟩ := huniform
      refine ⟨o ++ o', mem₂, ap₂, fun s hs => ?_⟩
      show vfmtLoop args (n + 1) ⟨s, mem, ap⟩ (c :: fmt) = _
      rw [ho s hs, ← puts_append]
      refine ho' _ ?_
      rw [puts_len s o (by omega), hs]

/-! ### A buffer -/

/-- A buffer after the characters `o` from place `k` on, with room in front of place `cap - 1` only. -/
def stored (b : Buf) (cap k : ℕ) (o : List UInt8) : Buf :=
  fun j => if k ≤ j ∧ j < k + o.length ∧ j + 1 < cap then o.getD (j - k) 0 else b j

theorem puts_buf {b : Buf} (hbuf : s.buf = some b) (hlen : s.len + o.length < 2 ^ 64) :
    (s.puts o).buf = some (stored b s.cap s.len o) ∧ (s.puts o).sent = s.sent := by
  induction o generalizing s b with
  | nil =>
    refine ⟨hbuf.trans (congrArg some (funext fun j => ?_)), rfl⟩
    have hout : ¬(s.len ≤ j ∧ j < s.len + ([] : List UInt8).length ∧ j + 1 < s.cap) := by
      rw [List.length_nil]
      omega
    rw [stored, if_neg hout]
  | cons c o ih =>
    rw [List.length_cons] at hlen
    have hnext : (sinkPutc s c).len = s.len + 1 := Nat.mod_eq_of_lt (by omega)
    have hfirst : (sinkPutc s c).buf = some (if s.len + 1 < s.cap then Function.update b s.len c else b) ∧
        (sinkPutc s c).cap = s.cap ∧ (sinkPutc s c).sent = s.sent := by
      rw [sinkPutc, sinkStore, hbuf]
      simp only [Nat.mod_eq_of_lt (show s.len + 1 < 2 ^ 64 by omega)]
      split
      · exact ⟨rfl, rfl, rfl⟩
      · exact ⟨hbuf, rfl, rfl⟩
    obtain ⟨hrest, hsent⟩ := ih hfirst.1 (by omega)
    refine ⟨?_, hsent.trans hfirst.2.2⟩
    show ((sinkPutc s c).puts o).buf = _
    rw [hrest, hfirst.2.1, hnext]
    refine congrArg some (funext fun j => ?_)
    rw [stored, stored, List.length_cons]
    by_cases hj : j = s.len
    · rw [if_neg (by omega), hj, Nat.sub_self, List.getD_cons_zero]
      by_cases hcap : s.len + 1 < s.cap
      · rw [if_pos hcap, if_pos (by omega), Function.update_self]
      · rw [if_neg hcap, if_neg (by omega)]
    · by_cases hin : s.len + 1 ≤ j ∧ j < s.len + 1 + o.length ∧ j + 1 < s.cap
      · rw [if_pos hin, if_pos (by omega), show j - s.len = j - (s.len + 1) + 1 by omega, List.getD_cons_succ]
      · rw [if_neg hin, if_neg (show ¬(s.len ≤ j ∧ j < s.len + (o.length + 1) ∧ j + 1 < s.cap) by omega)]
        split
        · rw [Function.update_of_ne hj]
        · rfl

theorem sinkPutc_fd (s : Sink) (c : UInt8) : (sinkPutc s c).fd = s.fd := by
  have hflush : (sinkFlush s).fd = s.fd := by
    rw [sinkFlush]
    split
    · rfl
    · rfl
  rw [sinkPutc, sinkStore]
  split
  · split
    · rfl
    · rfl
  · split
    · show (if s.fn = FBUF_SIZE then sinkFlush s else s).fd = s.fd
      split
      · exact hflush
      · rfl
    · rfl

theorem puts_fd (s : Sink) (o : List UInt8) : (s.puts o).fd = s.fd := by
  induction o generalizing s with
  | nil => rfl
  | cons c o ih => exact (ih (sinkPutc s c)).trans (sinkPutc_fd s c)

/-- Without a buffer and a descriptor nothing is kept. -/
theorem puts_nowhere (hbuf : s.buf = none) (hfd : s.fd < 0) : (s.puts o).buf = none ∧ (s.puts o).sent = s.sent := by
  induction o generalizing s with
  | nil => exact ⟨hbuf, rfl⟩
  | cons c o ih =>
    have hstore : sinkStore s c = s := by
      rw [sinkStore, hbuf]
      exact if_neg (by omega)
    have hfirst : (sinkPutc s c).buf = none ∧ (sinkPutc s c).fd = s.fd ∧ (sinkPutc s c).sent = s.sent := by
      rw [sinkPutc, hstore]
      exact ⟨hbuf, rfl, rfl⟩
    obtain ⟨hrest, hsent⟩ := ih hfirst.1 (by omega)
    exact ⟨hrest, hsent.trans hfirst.2.2⟩

/-! ### A descriptor -/

/-- The bytes of all calls of `sys_write`. -/
def Sink.bytesSent (s : Sink) : List UInt8 := (s.sent.map Prod.snd).flatten

/-- The bytes that were sent to `fd`, and those that wait in `fbuf`, are `o`. -/
structure Streams (s : Sink) (fd : ℤ) (o : List UInt8) : Prop where
  buf : s.buf = none
  target : s.fd = fd
  room : s.fn ≤ FBUF_SIZE
  calls : ∀ x ∈ s.sent, x.1 = fd
  bytes : s.bytesSent ++ firstBytes s.fbuf s.fn = o

theorem Streams.flush {fd : ℤ} (hs : Streams s fd o) (hfd : 0 ≤ fd) :
    Streams (sinkFlush s) fd o ∧ (sinkFlush s).fn = 0 := by
  rw [sinkFlush, hs.target]
  by_cases hwait : s.fn = 0
  · rw [if_neg fun h => h.2 hwait]
    exact ⟨hs, hwait⟩
  · rw [if_pos ⟨hfd, hwait⟩]
    refine ⟨⟨hs.buf, rfl, Nat.zero_le _, fun x hx => ?_, ?_⟩, rfl⟩
    · rcases List.mem_append.mp hx with hold | hnew
      · exact hs.calls x hold
      · rw [List.mem_singleton.mp hnew]
    · have hbytes := hs.bytes
      rw [Sink.bytesSent] at hbytes
      rw [← hbytes]
      show ((s.sent ++ [(fd, firstBytes s.fbuf s.fn)]).map Prod.snd).flatten ++ [] = _
      rw [List.append_nil, List.map_append, List.flatten_append]
      simp

theorem Streams.putc {fd : ℤ} (hs : Streams s fd o) (hfd : 0 ≤ fd) : Streams (sinkPutc s c) fd (o ++ [c]) := by
  have hroom : ∃ s₁, (if s.fn = FBUF_SIZE then sinkFlush s else s) = s₁ ∧ Streams s₁ fd o ∧ s₁.fn < FBUF_SIZE := by
    by_cases hfull : s.fn = FBUF_SIZE
    · obtain ⟨hflush, hempty⟩ := hs.flush hfd
      refine ⟨_, if_pos hfull, hflush, ?_⟩
      rw [hempty]
      decide
    · exact ⟨s, if_neg hfull, hs, Nat.lt_of_le_of_ne hs.room hfull⟩
  obtain ⟨s₁, hs₁, hstreams, hlt⟩ := hroom
  have hstore : sinkStore s c = { s₁ with fbuf := Function.update s₁.fbuf s₁.fn c, fn := s₁.fn + 1 } := by
    rw [sinkStore, hs.buf]
    simp only [hs.target, if_pos hfd, hs₁]
  rw [sinkPutc, hstore]
  refine ⟨hstreams.buf, hstreams.target, hlt, hstreams.calls, ?_⟩
  have hkept : firstBytes (Function.update s₁.fbuf s₁.fn c) s₁.fn = firstBytes s₁.fbuf s₁.fn :=
    firstBytes_congr fun j hj => Function.update_of_ne (by omega) ..
  show s₁.bytesSent ++ firstBytes (Function.update s₁.fbuf s₁.fn c) (s₁.fn + 1) = _
  rw [firstBytes_succ, Function.update_self, hkept, ← hstreams.bytes, List.append_assoc]

theorem Streams.puts {fd : ℤ} (hs : Streams s fd o) (hfd : 0 ≤ fd) (o' : List UInt8) :
    Streams (s.puts o') fd (o ++ o') := by
  induction o' generalizing s o with
  | nil =>
    rw [List.append_nil]
    exact hs
  | cons c o' ih =>
    have hrest := ih (hs.putc hfd (c := c))
    rw [List.append_assoc] at hrest
    exact hrest

/-! ### `snprintf` and `printf` -/

/-- The bytes that `printf` sends. -/
def printed (args : ℕ → UInt64) (mem : Buf) (fmt : List UInt8) : List UInt8 :=
  (printf args mem fmt).2.sink.bytesSent

/-- What a call with the capacity `n` has done, where the whole output is `o`: it returns the full length, and the buffer
has the beginning of the output and a NUL behind it, and is otherwise what it was. -/
structure Truncated (r : ℤ × Fmt) (buf : Option Buf) (n : ℕ) (o : List UInt8) : Prop where
  ret : r.1 = o.length
  calls : r.2.sink.sent = []
  null : buf = none → r.2.sink.buf = none
  buffer : ∀ b, buf = some b → ∃ b', r.2.sink.buf = some b' ∧ (∀ j, n ≤ j → b' j = b j) ∧
    (∀ j < min (n - 1) o.length, b' j = o.getD j 0) ∧ (0 < n → b' (min (n - 1) o.length) = 0)

theorem int32_natCast (hk : k < 2 ^ 31) : int32 (k : ℤ) = k := by
  rw [int32]
  exact Int.bmod_eq_of_le (by omega) (by omega)

/-- What `vfmt` does when its loop puts `o`. -/
theorem vfmt_of_loop {mem' : Buf} {ap' : ℕ}
    (ho : ∀ s : Sink, s.len = 0 → vfmtLoop args fmt.length ⟨s, mem, 0⟩ fmt = ⟨s.puts o, mem', ap'⟩) (s : Sink)
    (hs : s.len = 0) :
    (vfmt args ⟨s, mem, 0⟩ fmt).2.sink = sinkFlush (s.puts o) ∧
      (vfmt args ⟨s, mem, 0⟩ fmt).1 = int32 (o.length % 2 ^ 64 : ℕ) := by
  have hlen : (sinkFlush (s.puts o)).len = o.length % 2 ^ 64 := by
    have hputs := puts_len s o (by omega)
    rw [hs, Nat.zero_add] at hputs
    rw [← hputs, sinkFlush]
    split
    · rfl
    · rfl
  rw [vfmt]
  simp only [ho s hs, hlen, and_self]

/-- The text of a format, which all sinks receive. -/
theorem vfmt_uniform (args : ℕ → UInt64) (mem : Buf) (fmt : List UInt8) :
    ∃ o, (∀ s : Sink, s.len = 0 → (vfmt args ⟨s, mem, 0⟩ fmt).2.sink = sinkFlush (s.puts o) ∧
      (vfmt args ⟨s, mem, 0⟩ fmt).1 = int32 (o.length % 2 ^ 64 : ℕ)) := by
  have huniform : Uniform (fun st => vfmtLoop args fmt.length st fmt) mem 0 0 := vfmtLoop_uniform fmt.length (by decide)
  obtain ⟨o, mem', ap', ho⟩ := huniform
  exact ⟨o, vfmt_of_loop ho⟩

/-- The sink of `__vfmt_buf`. -/
def bufSink (buf : Option Buf) (n : ℕ) : Sink := ⟨buf, n, 0, -1, fun _ => 0, 0, []⟩

/-- What `vfmt` leaves in a buffer of capacity `n`, of the output `o`. -/
theorem vfmtBuf_buffer (buf : Option Buf) (n : ℕ)
    (ho : ∀ s : Sink, s.len = 0 → (vfmt args ⟨s, mem, 0⟩ fmt).2.sink = sinkFlush (s.puts o) ∧
      (vfmt args ⟨s, mem, 0⟩ fmt).1 = int32 (o.length % 2 ^ 64 : ℕ))
    (hL : o.length < 2 ^ 64) :
    (vfmtBuf args mem buf n fmt).1 = int32 (o.length : ℤ) ∧ (vfmtBuf args mem buf n fmt).2.sink.sent = [] ∧
      (buf = none → (vfmtBuf args mem buf n fmt).2.sink.buf = none) ∧
      ∀ b, buf = some b → ∃ b', (vfmtBuf args mem buf n fmt).2.sink.buf = some b' ∧ (∀ j, n ≤ j → b' j = b j) ∧
        (∀ j < min (n - 1) o.length, b' j = o.getD j 0) ∧ (0 < n → b' (min (n - 1) o.length) = 0) := by
  obtain ⟨hsink, hret⟩ := ho (bufSink buf n) rfl
  have hlen : ((bufSink buf n).puts o).len = o.length := by
    rw [puts_len _ o (show 0 < 2 ^ 64 by decide)]
    show (0 + o.length) % 2 ^ 64 = o.length
    omega
  have hflush : sinkFlush ((bufSink buf n).puts o) = (bufSink buf n).puts o := by
    have hfd : ¬0 ≤ ((bufSink buf n).puts o).fd := by
      rw [puts_fd]
      show ¬(0 : ℤ) ≤ -1
      decide
    exact if_neg fun h => hfd h.1
  have hlong : (bufSink buf n).len + o.length < 2 ^ 64 := by
    show 0 + o.length < 2 ^ 64
    omega
  rw [Nat.mod_eq_of_lt hL] at hret
  rw [hflush] at hsink
  rcases hvfmt : vfmt args ⟨bufSink buf n, mem, 0⟩ fmt with ⟨r, st⟩
  rw [hvfmt] at hsink hret
  have hsink : st.sink = (bufSink buf n).puts o := hsink
  have hret : r = int32 (o.length : ℤ) := hret
  rw [bufSink] at hvfmt
  cases buf with
  | none =>
    obtain ⟨hnone, hsent⟩ := puts_nowhere (s := bufSink none n) (o := o) rfl (show (-1 : ℤ) < 0 by decide)
    rw [← hsink] at hnone hsent
    have hsame : vfmtBuf args mem none n fmt = (r, st) := by
      rw [vfmtBuf, hvfmt]
      simp only [hnone]
    rw [hsame]
    exact ⟨hret, hsent, fun _ => hnone, fun b hb => absurd hb (by simp)⟩
  | some b =>
    obtain ⟨hbuf, hsent⟩ := puts_buf (s := bufSink (some b) n) (o := o) rfl hlong
    rw [← hsink] at hbuf hsent hlen
    have hcells : ∀ j, stored b n 0 o j = if j < o.length ∧ j + 1 < n then o.getD j 0 else b j := by
      intro j
      rw [stored, Nat.zero_add, Nat.sub_zero]
      exact if_congr (and_iff_right (Nat.zero_le j)) rfl rfl
    have hbuf : st.sink.buf = some (stored b n 0 o) := hbuf
    rw [vfmtBuf, hvfmt]
    simp only [hbuf, hlen]
    by_cases hn : n ≠ 0
    · have hlast : (if o.length < n then o.length else n - 1) = min (n - 1) o.length := by
        split
        · omega
        · omega
      rw [if_pos hn, hlast]
      refine ⟨hret, hsent, fun h => absurd h (by simp), fun b₁ hb₁ => ⟨_, rfl, fun j hj => ?_, fun j hj => ?_, fun _ => ?_⟩⟩
      · obtain rfl := Option.some.inj hb₁
        rw [Function.update_of_ne (by omega), hcells, if_neg (by omega)]
      · rw [Function.update_of_ne (by omega), hcells, if_pos (by omega)]
      · exact Function.update_self ..
    · rw [if_neg hn]
      have hn : n = 0 := not_not.mp hn
      refine ⟨hret, hsent, fun h => absurd h (by simp), fun b₁ hb₁ => ⟨_, hbuf, fun j _ => ?_, fun j hj => ?_,
        fun hpos => absurd hpos (by omega)⟩⟩
      · obtain rfl := Option.some.inj hb₁
        rw [hcells, if_neg (by omega)]
      · omega

/-- `vfmt` with a buffer of capacity `n`, of the output `o`. -/
theorem truncated_of_uniform {buf : Option Buf}
    (ho : ∀ s : Sink, s.len = 0 → (vfmt args ⟨s, mem, 0⟩ fmt).2.sink = sinkFlush (s.puts o) ∧
      (vfmt args ⟨s, mem, 0⟩ fmt).1 = int32 (o.length % 2 ^ 64 : ℕ))
    (hL : o.length < 2 ^ 31) : Truncated (vfmtBuf args mem buf n fmt) buf n o := by
  obtain ⟨hret, hcalls, hnull, hbuffer⟩ := vfmtBuf_buffer buf n ho (by omega)
  exact ⟨hret.trans (int32_natCast hL), hcalls, hnull, hbuffer⟩

/-- `printf` of the output `o`. -/
theorem printf_of_uniform
    (ho : ∀ s : Sink, s.len = 0 → (vfmt args ⟨s, mem, 0⟩ fmt).2.sink = sinkFlush (s.puts o) ∧
      (vfmt args ⟨s, mem, 0⟩ fmt).1 = int32 (o.length % 2 ^ 64 : ℕ)) :
    printed args mem fmt = o ∧ (∀ x ∈ (printf args mem fmt).2.sink.sent, x.1 = 1) ∧
      (printf args mem fmt).1 = int32 (o.length % 2 ^ 64 : ℕ) := by
  obtain ⟨hsink, hret⟩ := ho ⟨none, 0, 0, 1, fun _ => 0, 0, []⟩ rfl
  have hstart : Streams ⟨none, 0, 0, 1, fun _ => 0, 0, []⟩ 1 [] :=
    ⟨rfl, rfl, Nat.zero_le _, fun x hx => absurd hx List.not_mem_nil, rfl⟩
  obtain ⟨hstreams, hempty⟩ := (hstart.puts (by decide) o).flush (by decide)
  rw [printed, printf, vfd, hsink]
  refine ⟨?_, hstreams.calls, hret⟩
  have hbytes := hstreams.bytes
  rw [hempty, List.nil_append] at hbytes
  exact (List.append_nil _).symm.trans hbytes

/-- **Output is truncated, never different.**  For an output of less than 2^31 characters, `printf` sends it to descriptor
1 and returns its length, `sprintf` stores all of it, and `snprintf` as much of its beginning as there is room for. -/
theorem printf_truncated (args : ℕ → UInt64) (mem : Buf) (fmt : List UInt8) (hL : (printed args mem fmt).length < 2 ^ 31) :
    ((printf args mem fmt).1 = (printed args mem fmt).length ∧ ∀ x ∈ (printf args mem fmt).2.sink.sent, x.1 = 1) ∧
      (∀ b, Truncated (sprintf args mem (some b) fmt) (some b) (2 ^ 64 - 1) (printed args mem fmt)) ∧
      ∀ buf n, n < 2 ^ 64 → Truncated (snprintf args mem buf n fmt) buf n (printed args mem fmt) := by
  obtain ⟨o, ho⟩ := vfmt_uniform args mem fmt
  obtain ⟨hprinted, hcalls, hret⟩ := printf_of_uniform ho
  rw [hprinted] at hL ⊢
  refine ⟨⟨?_, hcalls⟩, fun b => truncated_of_uniform ho hL, fun buf n _ => truncated_of_uniform ho hL⟩
  rw [hret, Nat.mod_eq_of_lt (by omega), int32_natCast hL]

/-- `"n=%5d\n"`. -/
def countFormat : List UInt8 := [chr 'n', chr '=', chr '%', chr '5', chr 'd', 10]

example : printed (fun _ => 42) (fun _ => 0) countFormat =
    [chr 'n', chr '=', chr ' ', chr ' ', chr ' ', chr '4', chr '2', 10] := by decide

theorem printf_truncated_count :
    ((printf (fun _ => 42) (fun _ => 0) countFormat).1 = (printed (fun _ => 42) (fun _ => 0) countFormat).length ∧
        ∀ x ∈ (printf (fun _ => 42) (fun _ => 0) countFormat).2.sink.sent, x.1 = 1) ∧
      (∀ b, Truncated (sprintf (fun _ => 42) (fun _ => 0) (some b) countFormat) (some b) (2 ^ 64 - 1)
        (printed (fun _ => 42) (fun _ => 0) countFormat)) ∧
      ∀ buf n, n < 2 ^ 64 → Truncated (snprintf (fun _ => 42) (fun _ => 0) buf n countFormat) buf n
        (printed (fun _ => 42) (fun _ => 0) countFormat) :=
  printf_truncated (fun _ => 42) (fun _ => 0) countFormat (by decide)

end LizardOs.User
