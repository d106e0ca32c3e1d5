import LizardOs.User.StdioFile
import LizardOs.User.Scanf
import LizardOs.Lib.Steps
import LizardOs.Fat.ByteArray
import LizardOs.Syscall.Files
import LizardOs.Vfs.FatVolume

/-!
# The position of a stream

`fgetc`, `fread`, `ungetc`, `fseek` and `ftell` of `userspace/lib/stdio_file.c` over `sys_read` and `sys_lseek` of the
kernel.  The position of a `FILE` is the offset of its descriptor, less one while a character is pushed back.

`ftell` and the reads account for that character, and so does an `fseek` that goes from the beginning or the end of the
file.  From the current position `fseek` goes from the offset, which is one too far then, and an `fseek` that is refused
has dropped the character all the same (`stdio_position_iff`).
-/

namespace LizardOs.User

open LizardOs.Lib LizardOs.Vfs LizardOs.Syscall

def LZ_SEEK_SET : ℤ := 0
def LZ_SEEK_CUR : ℤ := 1
def LZ_SEEK_END : ℤ := 2

/-! ### The calls of the library -/

/-- The system calls that the library makes here, for a descriptor: `sys_read` with an address, a length and what lies
there, and `sys_lseek`. -/
structure Kernel (σ : Type) where
  sysRead : σ → ℤ → UInt64 → ℕ → Buf → ℤ × Buf × σ
  sysLseek : σ → ℤ → UInt64 → UInt64 → ℤ × σ

section

variable {σ : Type} (K : Kernel σ) (cell : UInt64)

/-- Put what a call left behind position `off` into the whole array. -/
def putBehind (out : Buf) (off : ℕ) (part : Buf) : Buf := fun i => if i < off then out i else part (i - off)

/-- The loop of `fread`: how many bytes were got, the file and the array.  A call that succeeds gets a byte at least, so
there are `total` rounds at most. -/
def freadLoop (ptr : UInt64) (total : ℕ) : ℕ → ℕ → File → Buf → σ → ℕ × File × Buf × σ
  | 0, got, f, out, s => (got, f, out, s)
  | k + 1, got, f, out, s =>
      if got < total then
        let r := K.sysRead s f.fd (ptr + UInt64.ofNat got) (total - got) fun i => out (got + i)
        let out := putBehind out got r.2.1
        if r.1 < 0 then (got, { f with err := true }, out, r.2.2)
        else if r.1 = 0 then (got, { f with eof := true }, out, r.2.2)
        else freadLoop ptr total k ((got + r.1.toNat) % 2 ^ 64) f out r.2.2
      else (got, f, out, s)

/-- `fread`; `out` is what the array holds. -/
def fread (ptr : UInt64) (size nmemb : ℕ) (out : Buf) (f : Option File) (s : σ) : ℕ × Buf × Option File × σ :=
  match f with
  | none => (0, out, none, s)
  | some f =>
      if size = 0 ∨ nmemb = 0 then (0, out, some f, s)
      else
        let total := size * nmemb % 2 ^ 64
        let start : ℕ × File × Buf :=
          match f.ungot with
          | some c => (1, { f with ungot := none }, Function.update out 0 c)
          | none => (0, f, out)
        let r := freadLoop K ptr total total start.1 start.2.1 start.2.2 s
        (r.1 / size, r.2.2.1, some r.2.1, r.2.2.2)

/-- `fseek`. -/
def fseek (f : Option File) (off whence : UInt64) (s : σ) : ℤ × Option File × σ :=
  match f with
  | none => (-1, none, s)
  | some f =>
      let r := K.sysLseek s f.fd off whence
      (if r.1 < 0 then -1 else 0, some { f with ungot := none, eof := false }, r.2)

/-- `ftell`. -/
def ftell (f : Option File) (s : σ) : ℤ × Option File × σ :=
  match f with
  | none => (-1, none, s)
  | some f =>
      let r := K.sysLseek s f.fd 0 (UInt64.ofInt LZ_SEEK_CUR)
      (if 0 ≤ r.1 ∧ f.ungot.isSome = true then r.1 - 1 else r.1, some f, r.2)

/-- `fgetc`; `cell` is where its variable lies. -/
def fgetc (f : Option File) (s : σ) : ℤ × Option File × σ :=
  match f with
  | none => (EOF, none, s)
  | some f =>
      match f.ungot with
      | some c => ((c.toNat : ℤ), some { f with ungot := none }, s)
      | none =>
          let r := K.sysRead s f.fd cell 1 fun _ => 0
          if r.1 = 1 then (((r.2.1 0).toNat : ℤ), some f, r.2.2)
          else if r.1 = 0 then (EOF, some { f with eof := true }, r.2.2)
          else (EOF, some { f with err := true }, r.2.2)

/-- `ungetc`. -/
def ungetc (c : ℤ) (f : Option File) : ℤ × Option File :=
  match f with
  | none => (EOF, none)
  | some f =>
      if c = EOF then (EOF, some f)
      else (c, some { f with ungot := some (UInt8.ofNat (c % 256).toNat), eof := false })

end

/-- A call on one stream. -/
inductive StreamCall where
  | fgetc
  | fread (ptr : UInt64) (size nmemb : ℕ) (out : Buf)
  | ungetc (c : ℤ)
  | fseek (off whence : UInt64)
  | ftell

/-- What it answers: a number, and `fread` the array too. -/
inductive Answer where
  | num (r : ℤ)
  | array (n : ℕ) (out : Buf)

/-- What the library does. -/
def StreamCall.exec {σ : Type} (K : Kernel σ) (cell : UInt64) :
    StreamCall → Option File × σ → Answer × (Option File × σ)
  | .fgetc, (f, s) => let r := User.fgetc K cell f s; (.num r.1, r.2)
  | .fread ptr size nmemb out, (f, s) => let r := User.fread K ptr size nmemb out f s; (.array r.1 r.2.1, r.2.2)
  | .ungetc c, (f, s) => let r := User.ungetc c f; (.num r.1, (r.2, s))
  | .fseek off whence, (f, s) => let r := User.fseek K f off whence s; (.num r.1, r.2)
  | .ftell, (f, s) => let r := User.ftell K f s; (.num r.1, r.2)

/-! ### What a stream is for -/

/-- A stream over the bytes of a file: its position, and whether the byte there is pushed back. -/
structure Stream where
  pos : ℕ
  pushed : Bool

/-- How many bytes were consumed before a character was pushed back. -/
def Stream.consumed (s : Stream) : ℕ := s.pos + s.pushed.toNat

/-- Where a seek in `len` bytes leads, for a `long` that must hold the new position. -/
def seekTarget (len pos : ℕ) (off whence : UInt64) : Option ℕ :=
  let base : Option ℕ :=
    if long whence = LZ_SEEK_SET then some 0
    else if long whence = LZ_SEEK_CUR then some pos
    else if long whence = LZ_SEEK_END then some len
    else none
  base.bind fun b => if 0 ≤ b + long off ∧ b + long off < 2 ^ 63 then some (b + long off).toNat else none

/-- What a stream over `data` does: a byte is read at the position, a seek goes from there, and one that is refused leaves
the stream as it is. -/
def StreamCall.spec (data : List UInt8) : StreamCall → Stream → Answer × Stream
  | .fgetc, s =>
      match data[s.pos]? with
      | some c => (.num c.toNat, ⟨s.pos + 1, false⟩)
      | none => (.num EOF, s)
  | .fread _ size nmemb out, s =>
      if size = 0 ∨ nmemb = 0 then (.array 0 out, s)
      else
        let got := min (size * nmemb) (data.length - s.pos)
        (.array (got / size) (splice out 0 (fun i => data.getD (s.pos + i) 0) got), ⟨s.pos + got, false⟩)
  | .ungetc c, s => (.num c, if c = EOF then s else ⟨s.pos - 1, true⟩)
  | .fseek off whence, s =>
      match seekTarget data.length s.pos off whence with
      | some pos => (.num 0, ⟨pos, false⟩)
      | none => (.num (-1), s)
  | .ftell, s => (.num s.pos, s)

/-- A call that a program may make: `ungetc` pushes back the byte before the position, with no other pushed back, and the
array of `fread` lies in the lower half of the addresses. -/
def StreamCall.Proper (data : List UInt8) (s : Stream) : StreamCall → Prop
  | .fread ptr size nmemb _ => size = 0 ∨ nmemb = 0 ∨ ptr ≠ 0 ∧ ptr.toNat + size * nmemb ≤ 2 ^ 47
  | .ungetc c => c = EOF ∨ s.pushed = false ∧ 0 < s.pos ∧ ∃ b : UInt8, data[s.pos - 1]? = some b ∧ c = b.toNat
  | _ => True

/-- A seek with a character pushed back that goes from the current position or is refused. -/
def StreamCall.Drifts (data : List UInt8) (s : Stream) : StreamCall → Prop
  | .fseek off whence =>
      s.pushed = true ∧ (long whence = LZ_SEEK_CUR ∨ seekTarget data.length s.pos off whence = none)
  | _ => False

/-! ### The kernel below -/

/-- The descriptor `fd` leads to a file with the bytes `data`: `At s n` says that its offset is `n`. -/
structure Kernel.Serves {σ : Type} (K : Kernel σ) (fd : ℤ) (data : List UInt8) (At : σ → ℕ → Prop) : Prop where
  length_lt : data.length < 2 ^ 63
  read : ∀ s n ptr len buf, At s n → n < 2 ^ 63 → ptr ≠ 0 → 0 < len → ptr.toNat + len ≤ 2 ^ 47 →
    ∃ s', K.sysRead s fd ptr len buf = (((min len (data.length - n) : ℕ) : ℤ),
        splice buf 0 (fun i => data.getD (n + i) 0) (min len (data.length - n)), s') ∧
      At s' (n + min len (data.length - n))
  seek : ∀ s n off whence pos, At s n → n < 2 ^ 63 → seekTarget data.length n off whence = some pos →
    ∃ s', K.sysLseek s fd off whence = ((pos : ℤ), s') ∧ At s' pos
  refuse : ∀ s n off whence, At s n → n < 2 ^ 63 → seekTarget data.length n off whence = none →
    ∃ e s', e < 0 ∧ K.sysLseek s fd off whence = (e, s') ∧ At s' n

/-- A file that holds a stream. -/
structure File.Holds {σ : Type} (f : File) (s : σ) (fd : ℤ) (data : List UInt8) (At : σ → ℕ → Prop) (st : Stream) :
    Prop where
  fd : f.fd = fd
  offset : At s st.consumed
  fits : st.consumed < 2 ^ 63
  ungot : f.ungot = if st.pushed = true then data[st.pos]? else none
  inside : st.pushed = true → st.pos < data.length

/-! ### Where a seek leads -/

theorem seekTarget_lt {len pos p : ℕ} {off whence : UInt64} (h : seekTarget len pos off whence = some p) : p < 2 ^ 63 := by
  obtain ⟨b, -, hb⟩ := Option.bind_eq_some_iff.mp h
  split at hb
  · rename_i hfits
    rw [← Option.some.inj hb]
    omega
  · cases hb

theorem seekTarget_cur (len pos : ℕ) {off whence : UInt64} (hwhence : long whence = LZ_SEEK_CUR) :
    seekTarget len pos off whence =
      if 0 ≤ pos + long off ∧ pos + long off < 2 ^ 63 then some (pos + long off).toNat else none := by
  rw [seekTarget, hwhence]
  rfl

/-- A seek from elsewhere does not ask for the position. -/
theorem seekTarget_congr (len pos pos' : ℕ) {off whence : UInt64} (hwhence : long whence ≠ LZ_SEEK_CUR) :
    seekTarget len pos off whence = seekTarget len pos' off whence := by
  rw [seekTarget, seekTarget, if_neg hwhence, if_neg hwhence]

/-- To stay where it is. -/
theorem seekTarget_here {len pos : ℕ} (hpos : pos < 2 ^ 63) :
    seekTarget len pos 0 (UInt64.ofInt LZ_SEEK_CUR) = some pos := by
  have hzero : long 0 = 0 := rfl
  rw [seekTarget_cur len pos (show long (UInt64.ofInt LZ_SEEK_CUR) = LZ_SEEK_CUR from rfl), hzero, if_pos (by omega)]
  exact congrArg some (by omega)

/-- A relative seek from one further leads one further. -/
theorem seekTarget_succ {len pos p q : ℕ} {off whence : UInt64} (hwhence : long whence = LZ_SEEK_CUR)
    (hp : seekTarget len pos off whence = some p) (hq : seekTarget len (pos + 1) off whence = some q) : q = p + 1 := by
  rw [seekTarget_cur len _ hwhence] at hp hq
  split at hp
  · split at hq
    · have hp := Option.some.inj hp
      have hq := Option.some.inj hq
      omega
    · cases hq
  · cases hp

/-! ### What the calls do -/

section Calls

variable {σ : Type} {K : Kernel σ} {cell : UInt64} {fd : ℤ} {data : List UInt8} {At : σ → ℕ → Prop} {f : File} {s : σ}
  {st : Stream}

theorem putBehind_splice (out src : Buf) (off n : ℕ) :
    putBehind out off (splice (fun i => out (off + i)) 0 src n) = splice out off src n := by
  funext i
  by_cases hi : i < off
  · rw [splice_outside (.inl hi)]
    exact if_pos hi
  · obtain ⟨j, rfl⟩ : ∃ j, i = off + j := ⟨i - off, by omega⟩
    have hshift := splice_shift out src off 0 n j
    rw [Nat.add_zero] at hshift
    rw [hshift, putBehind, if_neg hi, Nat.add_sub_cancel_left]

/-- The loop of `fread` gets what is left of the array or of the file. -/
theorem freadLoop_spec (hK : K.Serves fd data At) {ptr : UInt64} {total : ℕ} (hptr : ptr ≠ 0)
    (hlow : ptr.toNat + total ≤ 2 ^ 47) (k got : ℕ) (f : File) (out : Buf) (s : σ) (n : ℕ) (hfd : f.fd = fd)
    (hk : total ≤ got + k) (hgot : got ≤ total) (hat : At s n) (hn : n < 2 ^ 63) :
    ∃ f' s', freadLoop K ptr total k got f out s = (got + min (total - got) (data.length - n), f',
        splice out got (fun i => data.getD (n + i) 0) (min (total - got) (data.length - n)), s') ∧
      f'.fd = fd ∧ f'.ungot = f.ungot ∧ At s' (n + min (total - got) (data.length - n)) := by
  induction k generalizing got f out s n with
  | zero =>
    have hnone : min (total - got) (data.length - n) = 0 := by omega
    rw [hnone, splice_nothing]
    exact ⟨f, s, rfl, hfd, rfl, hat⟩
  | succ k ih =>
    by_cases hmore : got < total
    · have hstep : (ptr + UInt64.ofNat got).toNat = ptr.toNat + got := by
        rw [UInt64.toNat_add, UInt64.toNat_ofNat']
        omega
      have hlen := hK.length_lt
      obtain ⟨s₁, hread, hat₁⟩ := hK.read s n (ptr + UInt64.ofNat got) (total - got) (fun i => out (got + i)) hat hn
        (by
          intro hzero
          rw [hzero] at hstep
          have hpos : ptr.toNat = 0 := by
            have : (0 : UInt64).toNat = 0 := rfl
            omega
          exact hptr (UInt64.toNat_inj.mp hpos))
        (by omega) (by omega)
      rw [freadLoop, if_pos hmore, hfd]
      simp only [hread, putBehind_splice]
      rw [if_neg (by omega)]
      generalize hm : min (total - got) (data.length - n) = m at hat₁ ⊢
      by_cases hend : m = 0
      · rw [hend, if_pos Nat.cast_zero, splice_nothing]
        rw [hend] at hat₁
        exact ⟨_, s₁, rfl, rfl, rfl, hat₁⟩
      · have hnext : (got + ((m : ℕ) : ℤ).toNat) % 2 ^ 64 = got + m := by
          rw [Int.toNat_natCast]
          omega
        have hdone : min (total - (got + m)) (data.length - (n + m)) = 0 := by omega
        rw [if_neg (by omega), hnext]
        obtain ⟨f', s', hloop, hrest⟩ := ih (got + m) f (splice out got (fun i => data.getD (n + i) 0) m) s₁ (n + m) hfd
          (by omega) (by omega) hat₁ (by omega)
        rw [hdone, splice_nothing] at hloop
        rw [hdone] at hrest
        exact ⟨f', s', hloop, hrest⟩
    · have hnone : min (total - got) (data.length - n) = 0 := by omega
      rw [freadLoop, if_neg hmore, hnone, splice_nothing]
      exact ⟨f, s, rfl, hfd, rfl, hat⟩

/-- A stream with nothing pushed back. -/
theorem File.Holds.plain {pos : ℕ} (hfd : f.fd = fd) (hungot : f.ungot = none) (hat : At s pos) (hpos : pos < 2 ^ 63) :
    f.Holds s fd data At ⟨pos, false⟩ := ⟨hfd, hat, hpos, hungot, fun h => absurd h Bool.false_ne_true⟩

/-- What `ftell` says, whatever the file stands at. -/
theorem ftell_eq (hK : K.Serves fd data At) {n : ℕ} (hfd : f.fd = fd) (hat : At s n) (hn : n < 2 ^ 63) :
    ∃ s', ftell K (some f) s = (if f.ungot.isSome = true then (n : ℤ) - 1 else n, some f, s') ∧ At s' n := by
  obtain ⟨s', hseek, hat'⟩ := hK.seek s n 0 (UInt64.ofInt LZ_SEEK_CUR) n hat hn (seekTarget_here hn)
  refine ⟨s', ?_, hat'⟩
  rw [ftell]
  simp only [hfd, hseek, Int.natCast_nonneg, true_and]

/-- Whether a character is pushed back, and how far the descriptor is. -/
theorem File.Holds.cases (h : f.Holds s fd data At st) :
    st.pushed = false ∧ f.ungot = none ∧ st.consumed = st.pos ∨
      st.pushed = true ∧ st.consumed = st.pos + 1 ∧ ∃ b, data[st.pos]? = some b ∧ f.ungot = some b := by
  have hungot := h.ungot
  cases hp : st.pushed with
  | false =>
    rw [hp, if_neg Bool.false_ne_true] at hungot
    exact .inl ⟨rfl, hungot, by rw [Stream.consumed, hp]; rfl⟩
  | true =>
    rw [hp, if_pos rfl, List.getElem?_eq_getElem (h.inside hp)] at hungot
    exact .inr ⟨rfl, by rw [Stream.consumed, hp]; rfl, _, List.getElem?_eq_getElem (h.inside hp), hungot⟩

/-- `ftell` says the position. -/
theorem File.Holds.ftell (hK : K.Serves fd data At) (h : f.Holds s fd data At st) :
    ∃ s', User.ftell K (some f) s = ((st.pos : ℤ), some f, s') ∧ f.Holds s' fd data At st := by
  obtain ⟨s', htell, hat⟩ := ftell_eq hK h.fd h.offset h.fits
  refine ⟨s', ?_, ⟨h.fd, hat, h.fits, h.ungot, h.inside⟩⟩
  rcases h.cases with ⟨-, hnone, hpos⟩ | ⟨-, hpos, b, -, hsome⟩
  · rw [htell, hnone, if_neg (by decide), hpos]
  · have hless : ((st.pos + 1 : ℕ) : ℤ) - 1 = st.pos := by omega
    rw [htell, hsome, if_pos Option.isSome_some, hpos, hless]

/-- `fgetc` reads the byte at the position. -/
theorem File.Holds.fgetc (hK : K.Serves fd data At) (hcell : cell ≠ 0) (hlow : cell.toNat + 1 ≤ 2 ^ 47)
    (h : f.Holds s fd data At st) :
    ∃ r f' s', User.fgetc K cell (some f) s = (r, some f', s') ∧
      StreamCall.spec data .fgetc st = (.num r, (StreamCall.spec data .fgetc st).2) ∧
      f'.Holds s' fd data At (StreamCall.spec data .fgetc st).2 := by
  have hlen := hK.length_lt
  rcases h.cases with ⟨hpushed, hnone, hpos⟩ | ⟨hpushed, hpos, b, hb, hsome⟩
  · have hat := h.offset
    have hfits := h.fits
    rw [hpos] at hat hfits
    obtain ⟨s', hread, hat'⟩ := hK.read s st.pos cell 1 (fun _ => 0) hat hfits hcell (Nat.succ_pos 0) hlow
    by_cases hin : st.pos < data.length
    · have hone : min 1 (data.length - st.pos) = 1 := by omega
      rw [hone] at hread hat'
      have hbyte : data[st.pos]? = some (data.getD st.pos 0) := by
        rw [List.getD_eq_getElem?_getD, List.getElem?_eq_getElem hin]
        rfl
      refine ⟨(data.getD st.pos 0).toNat, f, s', ?_, ?_, ?_⟩
      · rw [User.fgetc]
        simp only [hnone, h.fd, hread]
        rw [if_pos Nat.cast_one, splice_zero Nat.one_pos, Nat.add_zero]
      · rw [StreamCall.spec, hbyte]
      · rw [StreamCall.spec, hbyte]
        exact .plain h.fd hnone hat' (by omega)
    · have hzero : min 1 (data.length - st.pos) = 0 := by omega
      rw [hzero] at hread hat'
      have hend : data[st.pos]? = none := List.getElem?_eq_none (by omega)
      refine ⟨EOF, { f with eof := true }, s', ?_, ?_, ?_⟩
      · rw [User.fgetc]
        simp only [hnone, h.fd, hread]
        rfl
      · rw [StreamCall.spec, hend]
      · rw [StreamCall.spec, hend]
        have hst : st = ⟨st.pos, false⟩ := by rw [← hpushed]
        rw [hst]
        exact .plain h.fd hnone hat' hfits
  · have hat := h.offset
    have hfits := h.fits
    rw [hpos] at hat hfits
    refine ⟨b.toNat, { f with ungot := none }, s, ?_, ?_, ?_⟩
    · rw [User.fgetc]
      simp only [hsome]
    · rw [StreamCall.spec, hb]
    · rw [StreamCall.spec, hb]
      exact .plain h.fd rfl hat hfits

/-- `fread` gets the bytes from the position on, as many as there are. -/
theorem File.Holds.fread (hK : K.Serves fd data At) (h : f.Holds s fd data At st) {ptr : UInt64} {size nmemb : ℕ}
    (hproper : size = 0 ∨ nmemb = 0 ∨ ptr ≠ 0 ∧ ptr.toNat + size * nmemb ≤ 2 ^ 47) (out : Buf) :
    ∃ n out' f' s', User.fread K ptr size nmemb out (some f) s = (n, out', some f', s') ∧
      StreamCall.spec data (.fread ptr size nmemb out) st =
        (.array n out', (StreamCall.spec data (.fread ptr size nmemb out) st).2) ∧
      f'.Holds s' fd data At (StreamCall.spec data (.fread ptr size nmemb out) st).2 := by
  by_cases hnone : size = 0 ∨ nmemb = 0
  · refine ⟨0, out, f, s, ?_, ?_, ?_⟩
    · rw [User.fread, if_pos hnone]
    · rw [StreamCall.spec, if_pos hnone]
    · rw [StreamCall.spec, if_pos hnone]
      exact h
  · obtain ⟨hptr, hlow⟩ : ptr ≠ 0 ∧ ptr.toNat + size * nmemb ≤ 2 ^ 47 := by
      rcases hproper with hsize | hnmemb | hok
      · exact absurd (.inl hsize) hnone
      · exact absurd (.inr hnmemb) hnone
      · exact hok
    have hlen := hK.length_lt
    have hfits := h.fits
    have htotal : size * nmemb % 2 ^ 64 = size * nmemb := Nat.mod_eq_of_lt (by omega)
    have hpos : 0 < size * nmemb :=
      Nat.mul_pos (Nat.pos_of_ne_zero fun h => hnone (.inl h)) (Nat.pos_of_ne_zero fun h => hnone (.inr h))
    rw [User.fread, StreamCall.spec, if_neg hnone, if_neg hnone]
    simp only [htotal]
    generalize size * nmemb = total at hlow hpos
    rcases h.cases with ⟨hpushed, hungot, heq⟩ | ⟨hpushed, heq, b, hb, hungot⟩
    · have hat := h.offset
      rw [heq] at hat hfits
      obtain ⟨f', s', hloop, hfd', hungot', hat'⟩ := freadLoop_spec hK hptr hlow total 0 f out s st.pos h.fd (by omega)
        (Nat.zero_le _) hat hfits
      rw [Nat.sub_zero] at hloop hat'
      rw [Nat.zero_add] at hloop
      refine ⟨_, _, f', s', ?_, rfl, .plain hfd' (hungot'.trans hungot) hat' (by omega)⟩
      simp only [hungot, hloop]
    · have hin := h.inside hpushed
      have hat := h.offset
      rw [heq] at hat hfits
      obtain ⟨f', s', hloop, hfd', hungot', hat'⟩ := freadLoop_spec hK hptr hlow total 1 { f with ungot := none }
        (Function.update out 0 b) s (st.pos + 1) h.fd (by omega) (by omega) hat hfits
      have hgot : 1 + min (total - 1) (data.length - (st.pos + 1)) = min total (data.length - st.pos) := by omega
      have hnext : st.pos + 1 + min (total - 1) (data.length - (st.pos + 1)) =
          st.pos + min total (data.length - st.pos) := by omega
      have hfirst : Function.update out 0 b = splice out 0 (fun i => data.getD (st.pos + i) 0) 1 := by
        funext i
        by_cases hi : i = 0
        · rw [hi, Function.update_self, splice_zero Nat.one_pos, Nat.add_zero, List.getD_eq_getElem?_getD, hb]
          rfl
        · rw [Function.update_of_ne hi, splice_outside (by omega)]
      have hsplice := splice_append out (fun i => data.getD (st.pos + i) 0) 0 1
        (min (total - 1) (data.length - (st.pos + 1)))
      simp only [Nat.zero_add, ← Nat.add_assoc] at hsplice
      rw [hfirst, hsplice, hgot] at hloop
      rw [hnext] at hat'
      refine ⟨_, _, f', s', ?_, rfl, .plain hfd' hungot' hat' (by omega)⟩
      simp only [hungot, hfirst, hloop]

/-- A byte that went through an `int` is itself. -/
theorem byte_stored (c : UInt8) : UInt8.ofNat ((c.toNat : ℤ) % 256).toNat = c := by
  have hmod : ((c.toNat : ℤ) % 256).toNat = c.toNat := by
    have := c.toNat_lt
    omega
  rw [hmod, UInt8.ofNat_toNat]

/-- `ungetc` of the byte before the position goes back to it. -/
theorem File.Holds.ungetc (h : f.Holds s fd data At st) {c : ℤ} (hproper : (StreamCall.ungetc c).Proper data st) :
    ∃ f', User.ungetc c (some f) = (c, some f') ∧ StreamCall.spec data (.ungetc c) st =
        (.num c, (StreamCall.spec data (.ungetc c) st).2) ∧
      f'.Holds s fd data At (StreamCall.spec data (.ungetc c) st).2 := by
  by_cases heof : c = EOF
  · refine ⟨f, ?_, rfl, ?_⟩
    · rw [User.ungetc, if_pos heof, heof]
    · rw [StreamCall.spec, if_pos heof]
      exact h
  · obtain ⟨hpushed, hpos, b, hb, rfl⟩ := hproper.resolve_left heof
    have hconsumed : st.consumed = st.pos := by
      rw [Stream.consumed, hpushed]
      rfl
    have hat := h.offset
    have hfits := h.fits
    rw [hconsumed] at hat hfits
    have hback : st.pos - 1 + 1 = st.pos := by omega
    refine ⟨{ f with ungot := some (UInt8.ofNat ((b.toNat : ℤ) % 256).toNat), eof := false }, ?_, rfl, ?_⟩
    · rw [User.ungetc, if_neg heof]
    · rw [StreamCall.spec, if_neg heof]
      refine ⟨h.fd, ?_, ?_, ?_, fun _ => (List.getElem?_eq_some_iff.mp hb).1⟩
      · show At s (st.pos - 1 + 1)
        rw [hback]
        exact hat
      · show st.pos - 1 + 1 < 2 ^ 63
        omega
      · show some (UInt8.ofNat ((b.toNat : ℤ) % 256).toNat) = data[st.pos - 1]?
        rw [byte_stored, hb]

/-- `fseek` goes where a seek from the offset leads. -/
theorem File.Holds.fseek (hK : K.Serves fd data At) (h : f.Holds s fd data At st) (off whence : UInt64) :
    ∃ f' s', User.fseek K (some f) off whence s =
        (if (seekTarget data.length st.consumed off whence).isSome = true then 0 else -1, some f', s') ∧
      f'.Holds s' fd data At ⟨(seekTarget data.length st.consumed off whence).getD st.consumed, false⟩ := by
  cases htarget : seekTarget data.length st.consumed off whence with
  | some pos =>
    obtain ⟨s', hseek, hat⟩ := hK.seek s st.consumed off whence pos h.offset h.fits htarget
    refine ⟨{ f with ungot := none, eof := false }, s', ?_, .plain h.fd rfl hat (seekTarget_lt htarget)⟩
    rw [User.fseek]
    simp only [h.fd, hseek]
    rw [if_neg (by omega)]
    rfl
  | none =>
    obtain ⟨e, s', he, hseek, hat⟩ := hK.refuse s st.consumed off whence h.offset h.fits htarget
    refine ⟨{ f with ungot := none, eof := false }, s', ?_, .plain h.fd rfl hat h.fits⟩
    rw [User.fseek]
    simp only [h.fd, hseek]
    rw [if_pos he]
    rfl

/-! ### Side by side -/

/-- A call that does not drift keeps file and stream together. -/
theorem File.Holds.exec (hK : K.Serves fd data At) (hcell : cell ≠ 0) (hlow : cell.toNat + 1 ≤ 2 ^ 47)
    (h : f.Holds s fd data At st) {call : StreamCall} (hproper : call.Proper data st) (hok : ¬call.Drifts data st) :
    (call.exec K cell (some f, s)).1 = (call.spec data st).1 ∧
      ∃ f', (call.exec K cell (some f, s)).2.1 = some f' ∧
        f'.Holds (call.exec K cell (some f, s)).2.2 fd data At (call.spec data st).2 := by
  cases call with
  | fgetc =>
    obtain ⟨r, f', s', hcall, hspec, hnext⟩ := h.fgetc hK hcell hlow
    rw [StreamCall.exec, hcall, hspec]
    exact ⟨rfl, f', rfl, hnext⟩
  | fread ptr size nmemb out =>
    obtain ⟨n, out', f', s', hcall, hspec, hnext⟩ := h.fread hK hproper out
    rw [StreamCall.exec, hcall, hspec]
    exact ⟨rfl, f', rfl, hnext⟩
  | ungetc c =>
    obtain ⟨f', hcall, hspec, hnext⟩ := h.ungetc hproper
    rw [StreamCall.exec, hcall, hspec]
    exact ⟨rfl, f', rfl, hnext⟩
  | ftell =>
    obtain ⟨s', hcall, hnext⟩ := h.ftell hK
    rw [StreamCall.exec, hcall]
    exact ⟨rfl, f, rfl, hnext⟩
  | fseek off whence =>
    obtain ⟨f', s', hcall, hnext⟩ := h.fseek hK off whence
    rw [StreamCall.exec, hcall, StreamCall.spec]
    rcases h.cases with ⟨hpushed, -, heq⟩ | ⟨hpushed, heq, -⟩
    · have hst : st = ⟨st.pos, false⟩ := by rw [← hpushed]
      rw [heq] at hnext ⊢
      cases htarget : seekTarget data.length st.pos off whence with
      | some pos =>
        rw [htarget] at hnext
        exact ⟨rfl, f', rfl, hnext⟩
      | none =>
        rw [htarget, Option.getD_none, ← hst] at hnext
        exact ⟨rfl, f', rfl, hnext⟩
    · obtain ⟨habsolute, hsome⟩ := not_or.mp fun hdrift => hok ⟨hpushed, hdrift⟩
      rw [heq, seekTarget_congr data.length (st.pos + 1) st.pos habsolute] at hnext ⊢
      cases htarget : seekTarget data.length st.pos off whence with
      | some pos =>
        rw [htarget] at hnext
        exact ⟨rfl, f', rfl, hnext⟩
      | none => exact absurd htarget hsome

/-- A call that drifts answers something else or leaves the stream elsewhere. -/
theorem File.Holds.exec_drifts (hK : K.Serves fd data At) (h : f.Holds s fd data At st) {call : StreamCall}
    (hdrifts : call.Drifts data st) (hanswer : (call.exec K cell (some f, s)).1 = (call.spec data st).1) :
    (User.ftell K (call.exec K cell (some f, s)).2.1 (call.exec K cell (some f, s)).2.2).1 ≠
      ((call.spec data st).2.pos : ℤ) := by
  cases call with
  | fseek off whence =>
    obtain ⟨hpushed, hdrifts⟩ := hdrifts
    obtain ⟨f', s', hcall, hnext⟩ := h.fseek hK off whence
    have hconsumed : st.consumed = st.pos + 1 := by
      rw [Stream.consumed, hpushed]
      rfl
    rw [hconsumed] at hcall hnext
    rw [StreamCall.exec, hcall, StreamCall.spec] at hanswer
    rw [StreamCall.exec, hcall, StreamCall.spec]
    obtain ⟨s'', htell, -⟩ := hnext.ftell hK
    show (User.ftell K (some f') s').1 ≠ _
    rw [htell]
    cases hfrom : seekTarget data.length (st.pos + 1) off whence with
    | some q =>
      cases hto : seekTarget data.length st.pos off whence with
      | some p =>
        have hcur : long whence = LZ_SEEK_CUR := hdrifts.resolve_right fun hnone => by rw [hto] at hnone; cases hnone
        have hfurther := seekTarget_succ hcur hto hfrom
        show ((q : ℕ) : ℤ) ≠ p
        omega
      | none =>
        rw [hfrom, hto] at hanswer
        exact absurd (Answer.num.inj hanswer) (show (0 : ℤ) ≠ -1 by decide)
    | none =>
      cases hto : seekTarget data.length st.pos off whence with
      | some p =>
        rw [hfrom, hto] at hanswer
        exact absurd (Answer.num.inj hanswer) (show (-1 : ℤ) ≠ 0 by decide)
      | none =>
        -- refused, and the character is gone
        show ((st.pos + 1 : ℕ) : ℤ) ≠ st.pos
        omega
  | fgetc => exact hdrifts.elim
  | fread ptr size nmemb out => exact hdrifts.elim
  | ungetc c => exact hdrifts.elim
  | ftell => exact hdrifts.elim

/-- After every part of a run, the answers are those of a stream and `ftell` says its position. -/
def PositionKept (K : Kernel σ) (cell : UInt64) (data : List UInt8) (f : File) (s : σ) (st : Stream)
    (calls : List StreamCall) : Prop :=
  ∀ n,
    (runCalls (StreamCall.exec K cell) (calls.take n) (some f, s)).1 =
        (runCalls (StreamCall.spec data) (calls.take n) st).1 ∧
      (ftell K (runCalls (StreamCall.exec K cell) (calls.take n) (some f, s)).2.1
          (runCalls (StreamCall.exec K cell) (calls.take n) (some f, s)).2.2).1 =
        ((runCalls (StreamCall.spec data) (calls.take n) st).2.pos : ℤ)

/-- Over any kernel that serves the file, a run keeps the position exactly when no call of it drifts. -/
theorem positionKept_iff (hK : K.Serves fd data At) (hcell : cell ≠ 0) (hlow : cell.toNat + 1 ≤ 2 ^ 47)
    (h : f.Holds s fd data At st) {calls : List StreamCall}
    (hproper : Along (StreamCall.spec data) (StreamCall.Proper data) calls st) :
    PositionKept K cell data f s st calls ↔
      Along (StreamCall.spec data) (fun st call => ¬call.Drifts data st) calls st := by
  let R : Option File × σ → Stream → Prop := fun x st => ∃ f, x.1 = some f ∧ f.Holds x.2 fd data At st
  let Q : Option File × σ → Stream → Prop := fun x st => (ftell K x.1 x.2).1 = (st.pos : ℤ)
  have hQ : ∀ x st, R x st → Q x st := by
    rintro ⟨_, s⟩ st ⟨f, rfl, h⟩
    obtain ⟨s', htell, -⟩ := h.ftell hK
    exact congrArg Prod.fst htell
  have hkept : ∀ x st call, R x st → StreamCall.Proper data st call → ¬StreamCall.Drifts data st call →
      (call.exec K cell x).1 = (call.spec data st).1 ∧ R (call.exec K cell x).2 (call.spec data st).2 := by
    rintro ⟨_, s⟩ st call ⟨f, rfl, h⟩ hproper hok
    exact h.exec hK hcell hlow hproper hok
  have hlost : ∀ x st call, R x st → StreamCall.Proper data st call → ¬¬StreamCall.Drifts data st call →
      (call.exec K cell x).1 = (call.spec data st).1 → ¬Q (call.exec K cell x).2 (call.spec data st).2 := by
    rintro ⟨_, s⟩ st call ⟨f, rfl, h⟩ - hdrifts hanswer
    exact h.exec_drifts hK (not_not.mp hdrifts) hanswer
  exact runCalls_agree_iff hQ hkept hlost calls ⟨f, rfl, h⟩ hproper

end Calls

/-! ### The files of a task -/

section Files

variable {φ ι : Type}

/-- The kernel below a stream of a task.  Nothing is queued on the terminal, which no file is read from. -/
def fileKernel (ops : FsOps φ ι) (t : ℕ) : Kernel (FileState φ ι) where
  sysRead s fd ptr len buf := s.sysRead ops t (UInt64.ofInt fd) ptr (UInt64.ofNat len) buf []
  sysLseek s fd off whence := s.sysLseek ops t (UInt64.ofInt fd) off whence

/-- The inode `i` has the bytes `data`: in the states `good`, a read gets those from an offset on. -/
structure Keeps (ops : FsOps φ ι) (i : ι) (data : List UInt8) (good : φ → Prop) : Prop where
  length_lt : data.length < 2 ^ 63
  size : ∀ fs, good fs → ops.size fs i = data.length
  read : ∃ read, ops.read i = some read ∧ ∀ fs buf count offset, good fs → count ≤ 2 ^ 47 → offset < 2 ^ 63 →
    ∃ fs', read fs buf count offset = (((min count (data.length - offset) : ℕ) : ℤ),
      splice buf 0 (fun j => data.getD (offset + j) 0) (min count (data.length - offset)), fs') ∧ good fs'

/-- A descriptor of a task that leads to an inode, with the offset `n`. -/
def OpenAt (t : ℕ) (fd : ℤ) (i : ι) (good : φ → Prop) (s : FileState φ ι) (n : ℕ) : Prop :=
  good s.vfs.fs ∧ ∃ id file, s.fdGet t (UInt64.ofInt fd) = some id ∧ s.vfs.fileAt id = some file ∧ file.inode = i ∧
    file.offset = n

variable {ops : FsOps φ ι} {t : ℕ} {fd : ℤ} {i : ι} {data : List UInt8} {good : φ → Prop} {s : FileState φ ι}

theorem fileAt_setOffset {vfs : VfsState φ ι} {id : ℕ} {file : Vfs.File ι} (h : vfs.fileAt id = some file) (n : ℕ) :
    (vfs.setOffset id n).fileAt id = some { file with offset := n } := by
  rw [VfsState.fileAt] at h
  have hfound := List.find?_some h
  have hid : file.id = id := of_decide_eq_true hfound
  rw [VfsState.fileAt, VfsState.setOffset, List.find?_map]
  have hsame : (fun f : Vfs.File ι => decide (f.id = id)) ∘
      (fun f => if f.id = id then { f with offset := n } else f) = fun f => decide (f.id = id) := by
    funext f
    show decide ((if f.id = id then { f with offset := n } else f).id = id) = decide (f.id = id)
    split
    · rfl
    · rfl
  rw [hsame, h, Option.map_some, if_pos hid]

/-- A descriptor of a file is none of the first three. -/
theorem not_std_of_fdGet {fd : UInt64} {id : ℕ} (h : s.fdGet t fd = some id) :
    long fd ≠ 0 ∧ ¬(long fd = 1 ∨ long fd = 2) := by
  have hslot : FileState.fdSlot fd ≠ none := by
    intro hnone
    rw [FileState.fdGet, hnone] at h
    cases h
  have hbase : ¬(long fd < 3) := by
    intro hlt
    exact hslot (if_pos (.inl hlt))
  omega

/-- An address in the lower half is one of the user. -/
theorem userPtrOk_low {ptr : UInt64} {len : ℕ} (hptr : ptr ≠ 0) (hlow : ptr.toNat + len ≤ 2 ^ 47) :
    userPtrOk ptr (UInt64.ofNat len) = true := by
  have hlen : (UInt64.ofNat len).toNat = len := by
    rw [UInt64.toNat_ofNat']
    omega
  have hlong : ¬long (UInt64.ofNat len) < 0 := by
    rw [long, hlen, asI64_of_lt (by omega)]
    omega
  have hsum : (ptr + UInt64.ofNat len).toNat = ptr.toNat + len := by
    rw [UInt64.toNat_add, hlen]
    omega
  have hnowrap : ¬ptr + UInt64.ofNat len < ptr := by
    rw [UInt64.lt_iff_toNat_lt, hsum]
    omega
  rw [userPtrOk, if_neg (by rintro (h | h); exacts [hptr h, hlong h]), if_neg (by rw [Mm.BOOT_HHDM_BASE]; omega),
    decide_eq_false hnowrap]
  rfl

theorem OpenAt.setOffset {n : ℕ} (h : OpenAt t fd i good s n) {fs : φ} (hfs : good fs) {id : ℕ}
    (hid : s.fdGet t (UInt64.ofInt fd) = some id) (m : ℕ) :
    OpenAt t fd i good { s with vfs := { s.vfs with fs := fs }.setOffset id m } m := by
  obtain ⟨-, id', file, hid', hfile, hinode, -⟩ := h
  obtain rfl : id' = id := Option.some.inj (hid'.symm.trans hid)
  exact ⟨hfs, id', { file with offset := m }, hid, fileAt_setOffset hfile m, hinode, rfl⟩

theorem sysRead_spec (hops : Keeps ops i data good) {n : ℕ} {ptr : UInt64} {len : ℕ} (buf : Buf)
    (h : OpenAt t fd i good s n) (hn : n < 2 ^ 63) (hptr : ptr ≠ 0) (hpos : 0 < len) (hlow : ptr.toNat + len ≤ 2 ^ 47) :
    ∃ s', s.sysRead ops t (UInt64.ofInt fd) ptr (UInt64.ofNat len) buf [] =
        (((min len (data.length - n) : ℕ) : ℤ),
          splice buf 0 (fun i => data.getD (n + i) 0) (min len (data.length - n)), s') ∧
      OpenAt t fd i good s' (n + min len (data.length - n)) := by
  obtain ⟨hgood, id, file, hid, hfile, hinode, hoffset⟩ := id h
  obtain ⟨read, hread, hreads⟩ := hops.read
  obtain ⟨fs', hbytes, hgood'⟩ := hreads s.vfs.fs buf len n hgood (by omega) hn
  obtain ⟨hfd, hfd'⟩ := not_std_of_fdGet hid
  have hlen : (UInt64.ofNat len).toNat = len := by
    rw [UInt64.toNat_ofNat']
    omega
  have hlong : long (UInt64.ofNat len) = len := by rw [long, hlen, asI64_of_lt (by omega)]
  have hvfs : s.vfs.vfsRead ops id buf len = (((min len (data.length - n) : ℕ) : ℤ),
      splice buf 0 (fun i => data.getD (n + i) 0) (min len (data.length - n)),
      { s.vfs with fs := fs' }.advance id n ((min len (data.length - n) : ℕ) : ℤ)) := by
    rw [VfsState.vfsRead, hfile]
    simp only [hinode, hread, hoffset, hbytes]
  rw [FileState.sysRead, userPtrOk_low hptr hlow, if_neg (by decide), hlong, if_neg (by omega), if_neg hfd, if_neg hfd',
    hid, hlen]
  simp only [hvfs]
  refine ⟨_, rfl, ?_⟩
  have hdata := hops.length_lt
  generalize hm : min len (data.length - n) = m
  rw [VfsState.advance]
  by_cases hzero : m = 0
  · rw [hzero, if_neg (by decide), Nat.add_zero]
    exact ⟨hgood', id, file, hid, hfile, hinode, hoffset⟩
  · have hnext : (n + ((m : ℕ) : ℤ).toNat) % 2 ^ 64 = n + m := by
      rw [Int.toNat_natCast]
      omega
    rw [if_pos (by omega), hnext]
    exact h.setOffset hgood' hid (n + m)

/-- `sys_lseek` goes where a seek from the offset leads, or answers an error. -/
theorem sysLseek_spec (hops : Keeps ops i data good) {n : ℕ} (off whence : UInt64) (h : OpenAt t fd i good s n)
    (hn : n < 2 ^ 63) :
    match seekTarget data.length n off whence with
    | some pos => ∃ s', s.sysLseek ops t (UInt64.ofInt fd) off whence = ((pos : ℤ), s') ∧ OpenAt t fd i good s' pos
    | none => s.sysLseek ops t (UInt64.ofInt fd) off whence = (-EINVAL, s) := by
  obtain ⟨hgood, id, file, hid, hfile, hinode, hoffset⟩ := id h
  have hdata := hops.length_lt
  have hbase : s.seekBase ops file whence = if long whence = LZ_SEEK_SET then some 0
      else if long whence = LZ_SEEK_CUR then some n
      else if long whence = LZ_SEEK_END then some data.length else none := by
    rw [FileState.seekBase, hoffset, hinode, hops.size _ hgood]
    rfl
  rw [FileState.sysLseek, hid]
  simp only [hfile, hbase]
  rw [seekTarget]
  generalize hb : (if long whence = LZ_SEEK_SET then some 0
      else if long whence = LZ_SEEK_CUR then some n
      else if long whence = LZ_SEEK_END then some data.length else none) = base
  cases base with
  | none => rfl
  | some b =>
    have hlt : b < 2 ^ 63 := by
      split at hb
      · rw [← Option.some.inj hb]
        decide
      · split at hb
        · rw [← Option.some.inj hb]
          exact hn
        · split at hb
          · rw [← Option.some.inj hb]
            exact hdata
          · cases hb
    have hoff : long off = off.toNat ∧ off.toNat < 2 ^ 63 ∨ long off = off.toNat - 2 ^ 64 ∧ 2 ^ 63 ≤ off.toNat := by
      rcases Nat.lt_or_ge off.toNat (2 ^ 63) with hsmall | hlarge
      · exact .inl ⟨asI64_of_lt hsmall, hsmall⟩
      · exact .inr ⟨asI64_of_ge hlarge off.toNat_lt, hlarge⟩
    have hofflt : off.toNat < 2 ^ 64 := off.toNat_lt
    rw [Option.bind_some]
    generalize long off = k at hoff
    generalize off.toNat = o at hoff hofflt
    by_cases hfits : 0 ≤ b + k ∧ b + k < 2 ^ 63
    · have hpos : (b + o) % 2 ^ 64 = (b + k).toNat := by omega
      rw [if_pos hfits]
      simp only [hpos]
      rw [asI64_of_lt (by omega), if_neg (by omega)]
      exact ⟨_, rfl, h.setOffset hgood hid _⟩
    · have hneg : asI64 ((b + o) % 2 ^ 64) < 0 := by
        rw [asI64_of_ge (by omega) (by omega)]
        omega
      rw [if_neg hfits]
      exact if_pos hneg

/-- **The kernel serves files**, over any file system that keeps them. -/
theorem fileKernel_serves (hops : Keeps ops i data good) (t : ℕ) (fd : ℤ) :
    (fileKernel ops t).Serves fd data (OpenAt t fd i good) where
  length_lt := hops.length_lt
  read _ _ _ _ buf hat hn hptr hpos hlow := sysRead_spec hops buf hat hn hptr hpos hlow
  seek s n off whence pos hat hn htarget := by
    have h := sysLseek_spec hops off whence hat hn
    rw [htarget] at h
    exact h
  refuse s n off whence hat hn htarget := by
    have h := sysLseek_spec hops off whence hat hn
    rw [htarget] at h
    exact ⟨-EINVAL, s, by decide, h, hat⟩

/-- A mounted volume keeps the bytes of its files. -/
theorem fatOps_keeps {v : Volume} {i : ℕ} {ino : Fat.Inode} {l : List ℕ} (hino : v.inodes i = some ino)
    (hrun : v.hung = false) (hfile : Fat.FileOf v.fat ino l) (hm : v.fat.Mounted) :
    Keeps fatOps i (v.fat.content l ino.size) (· = v) where
  length_lt := by
    have hlt := ino.ent.fileSizeBytes.toNat_lt
    rw [hfile.recorded] at hlt
    rw [Fat.Fat16.content, firstBytes_length]
    omega
  size := by
    intro fs hfs
    rw [hfs, Fat.Fat16.content, firstBytes_length]
    show ((v.inodes i).map fun ino => ino.size).getD 0 = ino.size
    rw [hino]
    rfl
  read := by
    refine ⟨_, rfl, ?_⟩
    intro fs buf count offset hfs hcount hoff
    rw [hfs]
    have hlt := ino.ent.fileSizeBytes.toNat_lt
    rw [hfile.recorded] at hlt
    have hsize := hfile.size_le
    have hwant : Fat.readWant ino.size count offset = min count (ino.size - offset) := by
      unfold Fat.readWant
      split
      · omega
      · rename_i hin
        rw [if_pos (by omega)]
    obtain ⟨r, buf', fs', k, hread, hro, hbuf, -, -, hq⟩ := Fat.fat16Read_run hm.sound hm.cache hfile.owns hsize hlt buf
      hoff (show count < 2 ^ 63 by omega) (by omega)
    obtain ⟨rfl, hk⟩ := hq hm.noFaults.io
    have hk : k = min count (ino.size - offset) := by omega
    have hsame : fs' = v.fat := hro.quiet hm.noFaults.io
    refine ⟨v, ?_, rfl⟩
    have hvol : v.run (Fat.fat16Read ino buf count offset) = (some ((k : ℤ), buf'), v) := by
      rw [Volume.run, if_neg (by rw [hrun]; exact Bool.false_ne_true), hread, hsame]
    simp only [hino, hvol]
    rw [Fat.Fat16.content, firstBytes_length, ← hk, hbuf]
    refine congrArg₂ Prod.mk rfl (congrArg₂ Prod.mk (splice_congr fun j hj => ?_) rfl)
    rw [List.getD_eq_getElem?_getD, firstBytes_get? (by omega)]
    rfl

end Files

/-- **The position of a stream.**  In a run of calls on a stream over an open file, every answer is that of a stream at
the position, and `ftell` says the position after every part of it, exactly when no call made while a character is pushed
back is a seek from the current position or a seek that is refused. -/
theorem stdio_position_iff {φ ι : Type} {ops : FsOps φ ι} {t : ℕ} {i : ι} {data : List UInt8} {good : φ → Prop}
    (hops : Keeps ops i data good) {cell : UInt64} (hcell : cell ≠ 0) (hlow : cell.toNat + 1 ≤ 2 ^ 47) {fd : ℤ} {f : File}
    {s : FileState φ ι} {st : Stream} (h : f.Holds s fd data (OpenAt t fd i good) st) {calls : List StreamCall}
    (hproper : Along (StreamCall.spec data) (StreamCall.Proper data) calls st) :
    PositionKept (fileKernel ops t) cell data f s st calls ↔
      Along (StreamCall.spec data) (fun st call => ¬call.Drifts data st) calls st :=
  positionKept_iff (fileKernel_serves hops t fd) hcell hlow h hproper

/-! ### A file of three bytes -/

/-- A file system that is one file. -/
def oneFile : FsOps (List UInt8) Unit where
  zalloc fs := (false, fs)
  size fs _ := fs.length
  mode _ _ := 0
  lookup _ := none
  create _ := none
  mkdir _ := none
  unlink _ := none
  rmdir _ := none
  truncate _ := none
  fileOpen _ := none
  read _ := some fun fs buf count offset =>
    (((min count (fs.length - offset) : ℕ) : ℤ),
      splice buf 0 (fun j => fs.getD (offset + j) 0) (min count (fs.length - offset)), fs)
  write _ := none
  readdir _ := none
  fileRelease _ := none

/-- The bytes `abc`. -/
def abc : List UInt8 := [chr 'a', chr 'b', chr 'c']

/-- A task that has just opened the file as descriptor 3. -/
def abcOpened : FileState (List UInt8) Unit :=
  ⟨⟨abc, fun _ => none, 0, [], 0, [⟨0, (), 0, O_RDONLY, 0⟩], 1, []⟩, fun _ i => if i = 0 then some 0 else none,
    fun _ => [chr '/'], []⟩

theorem oneFile_keeps : Keeps oneFile () abc (· = abc) where
  length_lt := by decide
  size := by
    rintro _ rfl
    rfl
  read := by
    refine ⟨_, rfl, ?_⟩
    rintro _ buf count offset rfl - -
    exact ⟨abc, rfl, rfl⟩

theorem abc_holds : logFile.Holds abcOpened 3 abc (OpenAt 0 3 () (· = abc)) ⟨0, false⟩ :=
  .plain rfl rfl ⟨rfl, 0, ⟨0, (), 0, O_RDONLY, 0⟩, rfl, rfl, rfl, rfl⟩ (by decide)

theorem stdio_position_iff_abc :
    PositionKept (fileKernel oneFile 0) 0x1000 abc logFile abcOpened ⟨0, false⟩
        [.fgetc, .ungetc 97, .fseek 1 0, .ftell] ↔
      Along (StreamCall.spec abc) (fun st call => ¬call.Drifts abc st) [.fgetc, .ungetc 97, .fseek 1 0, .ftell]
        ⟨0, false⟩ :=
  stdio_position_iff oneFile_keeps (by decide) (by decide) abc_holds
    ⟨trivial, .inr ⟨rfl, Nat.one_pos, chr 'a', rfl, rfl⟩, trivial, trivial, trivial⟩

/-- `getc`, `ungetc`, one further and where that is. -/
def backAndOn : List StreamCall := [.fgetc, .ungetc 97, .fseek 1 1, .ftell]

/-- With the first byte pushed back, a seek by one from the current position ends at the third byte. -/
theorem not_positionKept_abc :
    Along (StreamCall.spec abc) (StreamCall.Proper abc) backAndOn ⟨0, false⟩ ∧
      (runCalls (StreamCall.spec abc) backAndOn ⟨0, false⟩).1 = [.num 97, .num 97, .num 0, .num 1] ∧
      (runCalls (StreamCall.exec (fileKernel oneFile 0) 0x1000) backAndOn (some logFile, abcOpened)).1 =
        [.num 97, .num 97, .num 0, .num 2] ∧
      ¬PositionKept (fileKernel oneFile 0) 0x1000 abc logFile abcOpened ⟨0, false⟩ backAndOn := by
  have hspec : (runCalls (StreamCall.spec abc) backAndOn ⟨0, false⟩).1 = [.num 97, .num 97, .num 0, .num 1] := rfl
  have hexec : (runCalls (StreamCall.exec (fileKernel oneFile 0) 0x1000) backAndOn (some logFile, abcOpened)).1 =
      [.num 97, .num 97, .num 0, .num 2] := rfl
  refine ⟨⟨trivial, .inr ⟨rfl, Nat.one_pos, chr 'a', rfl, rfl⟩, trivial, trivial, trivial⟩, hspec, hexec, fun hkept => ?_⟩
  have hanswers : (runCalls (StreamCall.exec (fileKernel oneFile 0) 0x1000) backAndOn (some logFile, abcOpened)).1 =
      (runCalls (StreamCall.spec abc) backAndOn ⟨0, false⟩).1 := (hkept 4).1
  rw [hspec, hexec] at hanswers
  simp at hanswers

/-- A seek that is refused drops the byte that was pushed back: the position is 1, and that of a stream would still be 0. -/
example : (runCalls (StreamCall.exec (fileKernel oneFile 0) 0x1000)
    [.fgetc, .ungetc 97, .fseek (UInt64.ofInt (-5)) 1, .ftell] (some logFile, abcOpened)).1 =
      [.num 97, .num 97, .num (-1), .num 1] := rfl

end LizardOs.User
