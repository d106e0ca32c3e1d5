import LizardOs.User.PrintfSink

/-!
# Output to a file

`userspace/lib/stdio_file.c`: a `FILE` is a descriptor that nothing is buffered for, and `vfprintf` renders into 1024
bytes of its stack and passes these on.  What `sys_write` answers is the kernel's affair and a parameter here.

`fprintf` does what `printf` does as long as the output fits that array (`fprintf_iff`).
-/

namespace LizardOs.User

open LizardOs.Lib

/-- `struct _FILE`, with the flags as such. -/
structure File where
  fd : ℤ
  eof : Bool
  err : Bool
  /-- The character that was pushed back. -/
  ungot : Option UInt8

/-- The answer of `sys_write` for a descriptor and the bytes. -/
abbrev SysWrite := ℤ → List UInt8 → ℤ

/-- The calls of `sys_write`. -/
abbrev Calls := List (ℤ × List UInt8)

section

variable (write : SysWrite)

/-- The loop of `fwrite`: how many bytes were put, the file and the calls after it.  A call that succeeds takes a byte at
least, so there are `total` rounds at most. -/
def fwriteLoop (src : Buf) (total : ℕ) : ℕ → ℕ → File → Calls → ℕ × File × Calls
  | 0, put, f, sent => (put, f, sent)
  | k + 1, put, f, sent =>
      if put < total then
        let data := firstBytes (fun i => src (put + i)) (total - put)
        let n := write f.fd data
        let sent := sent ++ [(f.fd, data)]
        if n ≤ 0 then (put, { f with err := true }, sent)
        else fwriteLoop src total k ((put + n.toNat) % 2 ^ 64) f sent
      else (put, f, sent)

/-- `fwrite`; a file is null or not. -/
def fwrite (ptr : Buf) (size nmemb : ℕ) (f : Option File) (sent : Calls) : ℕ × Option File × Calls :=
  match f with
  | none => (0, none, sent)
  | some f =>
      if size = 0 ∨ nmemb = 0 then (0, some f, sent)
      else
        let total := size * nmemb % 2 ^ 64
        let (put, f, sent) := fwriteLoop write ptr total total 0 f sent
        (put / size, some f, sent)

/-- The size of the array of `vfprintf`. -/
def VFPRINTF_BUF : ℕ := 1024

/-- `vfprintf`: what it returns, and the file and the calls after it.  `buf` is what is on the stack. -/
def vfprintf (args : ℕ → UInt64) (mem buf : Buf) (f : Option File) (fmt : List UInt8) : ℤ × Option File × Calls :=
  let (r, st) := vfmtBuf args mem (some buf) VFPRINTF_BUF fmt
  let len := (r % 2 ^ 64).toNat
  let n := if len < VFPRINTF_BUF - 1 then len else VFPRINTF_BUF - 1
  (r, (fwrite write (st.sink.buf.getD buf) 1 n f st.sink.sent).2)

/-- `fprintf`. -/
def fprintf (args : ℕ → UInt64) (mem buf : Buf) (f : Option File) (fmt : List UInt8) : ℤ × Option File × Calls :=
  vfprintf write args mem buf f fmt

end

/-- The bytes of all calls. -/
def passed (sent : Calls) : List UInt8 := (sent.map Prod.snd).flatten

variable {write : SysWrite} {args : ℕ → UInt64} {mem buf : Buf} {fmt : List UInt8} {s : Sink} {o : List UInt8} {n : ℕ}

/-! ### Passing everything on -/

/-- A kernel that accepts all bytes is called once. -/
theorem fwrite_all (hwrite : ∀ fd data, write fd data = data.length) (ptr : Buf) (f : File) (sent : Calls)
    (hn : n < 2 ^ 64) :
    fwrite write ptr 1 n (some f) sent =
      (n, some f, if n = 0 then sent else sent ++ [(f.fd, firstBytes ptr n)]) := by
  cases n with
  | zero => rfl
  | succ k =>
    have htotal : 1 * (k + 1) % 2 ^ 64 = k + 1 := by omega
    have hdata : firstBytes (fun i => ptr (0 + i)) (k + 1 - 0) = firstBytes ptr (k + 1) :=
      firstBytes_congr fun j _ => congrArg ptr (Nat.zero_add j)
    have hanswer : write f.fd (firstBytes ptr (k + 1)) = (k + 1 : ℕ) := by
      rw [hwrite, firstBytes_length]
    have hput : (0 + ((k + 1 : ℕ) : ℤ).toNat) % 2 ^ 64 = k + 1 := by
      rw [Int.toNat_natCast]
      omega
    have hlast : ∀ sent, fwriteLoop write ptr (k + 1) k (k + 1) f sent = (k + 1, f, sent) := by
      intro sent
      cases k with
      | zero => rfl
      | succ k => rw [fwriteLoop, if_neg (Nat.lt_irrefl _)]
    have hloop : fwriteLoop write ptr (k + 1) (k + 1) 0 f sent =
        (k + 1, f, sent ++ [(f.fd, firstBytes ptr (k + 1))]) := by
      rw [fwriteLoop, if_pos (Nat.succ_pos k)]
      simp only [hdata, hanswer, hput, hlast]
      exact if_neg (by omega)
    rw [fwrite]
    simp only [htotal, hloop, Nat.div_one]
    rw [if_neg (by omega), if_neg (Nat.succ_ne_zero k)]

/-! ### The array -/

/-- A sink without a descriptor sends nothing. -/
theorem puts_sent (hfd : s.fd < 0) : (s.puts o).sent = s.sent := by
  induction o generalizing s with
  | nil => rfl
  | cons c o ih =>
    have hfirst : (sinkPutc s c).sent = s.sent := by
      rw [sinkPutc, sinkStore]
      split
      · split
        · rfl
        · rfl
      · rw [if_neg (Int.not_le.mpr hfd)]
    exact (ih (by rw [sinkPutc_fd]; exact hfd)).trans hfirst

theorem vfmtBuf_sent (args : ℕ → UInt64) (mem : Buf) (buf : Option Buf) (n : ℕ) (fmt : List UInt8) :
    (vfmtBuf args mem buf n fmt).2.sink.sent = [] := by
  obtain ⟨o, ho⟩ := vfmt_uniform args mem fmt
  obtain ⟨hsink, -⟩ := ho (bufSink buf n) rfl
  have hfd : ((bufSink buf n).puts o).fd < 0 := by
    rw [puts_fd]
    show (-1 : ℤ) < 0
    decide
  have hflush : sinkFlush ((bufSink buf n).puts o) = (bufSink buf n).puts o := if_neg fun h => absurd h.1 (by omega)
  have hsent : (vfmt args ⟨bufSink buf n, mem, 0⟩ fmt).2.sink.sent = [] := by
    rw [hsink, hflush, puts_sent (show (-1 : ℤ) < 0 by decide)]
    rfl
  rw [bufSink] at hsent
  rw [vfmtBuf]
  generalize vfmt args ⟨⟨buf, n, 0, -1, fun _ => 0, 0, []⟩, mem, 0⟩ fmt = r at hsent ⊢
  obtain ⟨r, st⟩ := r
  simp only []
  split
  · split
    · exact hsent
    · exact hsent
  · exact hsent

/-- How many bytes `vfprintf` passes on for the answer `r` of `__vfmt_buf`. -/
def fprintfCount (r : ℤ) : ℕ :=
  if (r % 2 ^ 64).toNat < VFPRINTF_BUF - 1 then (r % 2 ^ 64).toNat else VFPRINTF_BUF - 1

theorem fprintfCount_le (r : ℤ) : fprintfCount r ≤ 1023 := by
  rw [fprintfCount]
  split
  · exact Nat.le_of_lt ‹_›
  · exact le_rfl

/-- One call passes the beginning of the array on, if there is anything to pass. -/
theorem fprintf_calls (hwrite : ∀ fd data, write fd data = data.length) (args : ℕ → UInt64) (mem buf : Buf) (f : File)
    (fmt : List UInt8) {r : ℤ} {st : Fmt} (hr : vfmtBuf args mem (some buf) VFPRINTF_BUF fmt = (r, st)) :
    fprintf write args mem buf (some f) fmt =
      (r, some f, if fprintfCount r = 0 then [] else
        [(f.fd, firstBytes (st.sink.buf.getD buf) (fprintfCount r))]) := by
  have hsent : st.sink.sent = [] := by
    have h := vfmtBuf_sent args mem (some buf) VFPRINTF_BUF fmt
    rw [hr] at h
    exact h
  have hcount := fprintfCount_le r
  rw [fprintf, vfprintf, hr]
  show (r, (fwrite write (st.sink.buf.getD buf) 1 (fprintfCount r) (some f) st.sink.sent).2) = _
  rw [fwrite_all hwrite _ _ _ (by omega), hsent]
  rfl

theorem passed_calls (fd : ℤ) (b : Buf) (n : ℕ) :
    passed (if n = 0 then [] else [(fd, firstBytes b n)]) = firstBytes b n := by
  split
  · rename_i hn
    rw [hn]
    rfl
  · exact List.append_nil _

/-- **`fprintf` and `printf`.**  With a kernel that accepts all bytes, `fprintf` calls it for the descriptor of the file,
and it passes on what `printf` sends and returns its length exactly when that is no more than the array has room for. -/
theorem fprintf_iff (hwrite : ∀ fd data, write fd data = data.length) (args : ℕ → UInt64) (mem buf : Buf) (f : File)
    (fmt : List UInt8) :
    (∀ call ∈ (fprintf write args mem buf (some f) fmt).2.2, call.1 = f.fd) ∧
      (passed (fprintf write args mem buf (some f) fmt).2.2 = printed args mem fmt ∧
          (fprintf write args mem buf (some f) fmt).1 = (passed (fprintf write args mem buf (some f) fmt).2.2).length ↔
        (printed args mem fmt).length ≤ 1023) := by
  obtain ⟨o, ho⟩ := vfmt_uniform args mem fmt
  rw [(printf_of_uniform ho).1]
  rcases hr : vfmtBuf args mem (some buf) VFPRINTF_BUF fmt with ⟨r, st⟩
  have hcount := fprintfCount_le r
  rw [fprintf_calls hwrite args mem buf f fmt hr]
  constructor
  · intro call hcall
    have hcall : call ∈ if fprintfCount r = 0 then [] else
      [(f.fd, firstBytes (st.sink.buf.getD buf) (fprintfCount r))] := hcall
    split at hcall
    · exact absurd hcall List.not_mem_nil
    · rw [List.mem_singleton.mp hcall]
  · show passed (if fprintfCount r = 0 then [] else [(f.fd, firstBytes (st.sink.buf.getD buf) (fprintfCount r))]) = o ∧
        r = (passed (if fprintfCount r = 0 then [] else
          [(f.fd, firstBytes (st.sink.buf.getD buf) (fprintfCount r))])).length ↔ _
    rw [passed_calls, firstBytes_length]
    constructor
    · rintro ⟨hbytes, -⟩
      rw [← hbytes, firstBytes_length]
      exact hcount
    · intro hfits
      have htruncated : Truncated (vfmtBuf args mem (some buf) VFPRINTF_BUF fmt) (some buf) VFPRINTF_BUF o :=
        truncated_of_uniform ho (by omega)
      rw [hr] at htruncated
      have hret : r = o.length := htruncated.ret
      obtain ⟨b, hb, -, hcells, -⟩ := htruncated.buffer buf rfl
      have hb : st.sink.buf = some b := hb
      have hall : fprintfCount r = o.length := by
        have hmod : (r % 2 ^ 64).toNat = o.length := by omega
        rw [fprintfCount, hmod]
        split
        · rfl
        · rw [VFPRINTF_BUF] at *
          omega
      refine ⟨?_, by rw [hall, hret]⟩
      rw [hall, hb]
      refine List.ext_getElem? fun j => ?_
      by_cases hj : j < o.length
      · have hmin : min (VFPRINTF_BUF - 1) o.length = o.length := Nat.min_eq_right hfits
        rw [firstBytes_get? hj, Option.getD_some, hcells j (by rw [hmin]; exact hj), List.getD_eq_getElem?_getD,
          List.getElem?_eq_getElem hj]
        rfl
      · rw [List.getElem?_eq_none (by rw [firstBytes_length]; omega), List.getElem?_eq_none (by omega)]

/-- A kernel that accepts all bytes. -/
def acceptAll : SysWrite := fun _ data => data.length

/-- A file with the descriptor 3. -/
def logFile : File := ⟨3, false, false, none⟩

theorem fprintf_iff_count :
    (∀ call ∈ (fprintf acceptAll (fun _ => 42) (fun _ => 0) (fun _ => 0) (some logFile) countFormat).2.2,
        call.1 = logFile.fd) ∧
      (passed (fprintf acceptAll (fun _ => 42) (fun _ => 0) (fun _ => 0) (some logFile) countFormat).2.2 =
            printed (fun _ => 42) (fun _ => 0) countFormat ∧
          (fprintf acceptAll (fun _ => 42) (fun _ => 0) (fun _ => 0) (some logFile) countFormat).1 =
            (passed (fprintf acceptAll (fun _ => 42) (fun _ => 0) (fun _ => 0) (some logFile) countFormat).2.2).length ↔
        (printed (fun _ => 42) (fun _ => 0) countFormat).length ≤ 1023) :=
  fprintf_iff (fun _ _ => rfl) (fun _ => 42) (fun _ => 0) (fun _ => 0) logFile countFormat

/-- `"%1024d"`. -/
def wideFormat : List UInt8 := [chr '%', chr '1', chr '0', chr '2', chr '4', chr 'd']

/-- Of 1024 characters, `fprintf` passes 1023 on, and returns 1024. -/
theorem not_fprintf_wide :
    (printed (fun _ => 7) (fun _ => 0) wideFormat).length = 1024 ∧
      (fprintf acceptAll (fun _ => 7) (fun _ => 0) (fun _ => 0) (some logFile) wideFormat).1 = 1024 ∧
      (passed (fprintf acceptAll (fun _ => 7) (fun _ => 0) (fun _ => 0) (some logFile) wideFormat).2.2).length = 1023 ∧
      passed (fprintf acceptAll (fun _ => 7) (fun _ => 0) (fun _ => 0) (some logFile) wideFormat).2.2 ≠
        printed (fun _ => 7) (fun _ => 0) wideFormat := by
  have hprinted : (printed (fun _ => 7) (fun _ => 0) wideFormat).length = 1024 := by decide +kernel
  have hpassed : (passed (fprintf acceptAll (fun _ => 7) (fun _ => 0) (fun _ => 0) (some logFile)
      wideFormat).2.2).length = 1023 := by decide +kernel
  refine ⟨hprinted, by decide +kernel, hpassed, fun heq => ?_⟩
  rw [heq, hprinted] at hpassed
  exact absurd hpassed (by decide)

end LizardOs.User
