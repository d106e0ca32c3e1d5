import LizardOs.Lib.Bytes
import LizardOs.Lib.ForLoop
import Mathlib.Data.Int.Basic
import Mathlib.Logic.Function.Basic

/-!
# Formatted output

`userspace/lib/printf.c`: `vfmt` drives a sink that is the buffer of a caller or a file descriptor.  A format string is
the list of its characters, without the NUL; past its end a NUL is read.  The arguments are words of 64 bits, as the
calling convention of variadic functions has them, and strings are read from memory, which is not the buffer that is
written to.  Numbers of type `int` wrap around.
-/

namespace LizardOs.User

open LizardOs.Lib

/-- The code of a character. -/
def chr (c : Char) : UInt8 := UInt8.ofNat c.toNat

/-- A number as an `int`. -/
def int32 (x : ℤ) : ℤ := x.bmod (2 ^ 32)

/-! ### The sink -/

structure Sink where
  /-- The buffer of the caller, or null. -/
  buf : Option Buf
  /-- Its capacity, with the place of the NUL. -/
  cap : ℕ
  /-- How many characters would have been written. -/
  len : ℕ
  fd : ℤ
  fbuf : Buf
  fn : ℕ
  /-- The calls of `sys_write`. -/
  sent : List (ℤ × List UInt8)

/-- The size of `fbuf`. -/
def FBUF_SIZE : ℕ := 128

def sinkFlush (s : Sink) : Sink :=
  if 0 ≤ s.fd ∧ s.fn ≠ 0 then { s with sent := s.sent ++ [(s.fd, firstBytes s.fbuf s.fn)], fn := 0 } else s

/-- What `sink_putc` does to the buffers. -/
def sinkStore (s : Sink) (c : UInt8) : Sink :=
  match s.buf with
  | some buf => if (s.len + 1) % 2 ^ 64 < s.cap then { s with buf := some (Function.update buf s.len c) } else s
  | none =>
      if 0 ≤ s.fd then
        let s := if s.fn = FBUF_SIZE then sinkFlush s else s
        { s with fbuf := Function.update s.fbuf s.fn c, fn := s.fn + 1 }
      else s

def sinkPutc (s : Sink) (c : UInt8) : Sink := { sinkStore s c with len := (s.len + 1) % 2 ^ 64 }

def sinkWrite (s : Sink) (p : Buf) (n : ℕ) : Sink := forLoop n (fun i s => sinkPutc s (p i)) s

def sinkPad (s : Sink) (c : UInt8) (n : ℤ) : Sink := forLoop n.toNat (fun _ s => sinkPutc s c) s

/-! ### Numbers -/

/-- `digs[d]`. -/
def digs (upper : Bool) (d : ℕ) : UInt8 :=
  if d < 10 then chr '0' + UInt8.ofNat d else (if upper then chr 'A' else chr 'a') + UInt8.ofNat (d - 10)

/-- The digits of a number, the last one first; `tmp` has room for 32. -/
def digitsRev (base : ℕ) : ℕ → ℕ → List ℕ
  | 0, _ => []
  | n + 1, v => (v % base) :: if v / base = 0 then [] else digitsRev base n (v / base)

/-- `u_to_str`: what it lays down in `out`. -/
def uToStr (v base : ℕ) (upper : Bool) : List UInt8 := ((digitsRev base 32 v).map (digs upper)).reverse

/-- A buffer that begins with the bytes of a list. -/
def bufOf (l : List UInt8) : Buf := fun i => l.getD i 0

/-! ### The parts of a directive -/

structure Flags where
  left : Bool
  zero : Bool
  plus : Bool
  space : Bool
  alt : Bool

def noFlags : Flags := ⟨false, false, false, false, false⟩

/-- One round of the loop over the flags, or `none` at its end. -/
def Flags.add (f : Flags) (c : UInt8) : Option Flags :=
  if c = chr '-' then some { f with left := true }
  else if c = chr '0' then some { f with zero := true }
  else if c = chr '+' then some { f with plus := true }
  else if c = chr ' ' then some { f with space := true }
  else if c = chr '#' then some { f with alt := true }
  else none

def parseFlags : List UInt8 → Flags → Flags × List UInt8
  | [], f => (f, [])
  | c :: fmt, f =>
      match f.add c with
      | some f => parseFlags fmt f
      | none => (f, c :: fmt)

def isdigit (c : UInt8) : Bool := decide (chr '0' ≤ c) && decide (c ≤ chr '9')

/-- `while (isdigit(*fmt)) w = w * 10 + (*fmt++ - '0')`. -/
def scanDigits : List UInt8 → ℤ → ℤ × List UInt8
  | [], w => (w, [])
  | c :: fmt, w =>
      if isdigit c = true then scanDigits fmt (int32 (int32 (w * 10) + (c.toNat - (chr '0').toNat : ℤ))) else (w, c :: fmt)

/-- `va_arg(ap, int)`. -/
def argInt (args : ℕ → UInt64) (ap : ℕ) : ℤ := int32 (args ap).toNat

/-- The width: the flags with `left` for a negative one, the width, the arguments and the format left over. -/
def parseWidth (args : ℕ → UInt64) (ap : ℕ) (f : Flags) (fmt : List UInt8) : Flags × ℤ × ℕ × List UInt8 :=
  if fmt.head? = some (chr '*') then
    let width := argInt args ap
    if width < 0 then ({ f with left := true }, int32 (-width), ap + 1, fmt.tail) else (f, width, ap + 1, fmt.tail)
  else
    let (width, fmt) := scanDigits fmt 0
    (f, width, ap, fmt)

/-- The precision, −1 for none. -/
def parsePrec (args : ℕ → UInt64) (ap : ℕ) (fmt : List UInt8) : ℤ × ℕ × List UInt8 :=
  if fmt.head? = some (chr '.') then
    let fmt := fmt.tail
    let (prec, ap, fmt) :=
      if fmt.head? = some (chr '*') then (argInt args ap, ap + 1, fmt.tail)
      else
        let (prec, fmt) := scanDigits fmt 0
        (prec, ap, fmt)
    (if prec < 0 then -1 else prec, ap, fmt)
  else (-1, ap, fmt)

/-- The length modifiers: how many `l`. -/
def scanLength : List UInt8 → ℕ → ℕ × List UInt8
  | [], lng => (lng, [])
  | c :: fmt, lng =>
      if c = chr 'l' then scanLength fmt (lng + 1)
      else if c = chr 'h' ∨ c = chr 'z' ∨ c = chr 'j' ∨ c = chr 't' then scanLength fmt lng
      else (lng, c :: fmt)

/-! ### The conversions -/

/-- The argument of `%d`: a `long` has 64 bits, as a `long long` has. -/
def argSigned (args : ℕ → UInt64) (lng ap : ℕ) : ℤ :=
  if lng = 0 then argInt args ap else Int.bmod (args ap).toNat (2 ^ 64)

/-- The argument of `%u`. -/
def argUnsigned (args : ℕ → UInt64) (lng ap : ℕ) : ℕ :=
  if lng = 0 then (args ap).toNat % 2 ^ 32 else (args ap).toNat

def convSigned (f : Flags) (width prec v : ℤ) (s : Sink) : Sink :=
  let mag := if v < 0 then (-(v + 1)).toNat + 1 else v.toNat
  let sign := if v < 0 then chr '-' else if f.plus then chr '+' else if f.space then chr ' ' else 0
  let numbuf := uToStr mag 10 false
  let nl : ℤ := numbuf.length
  let zpad := if 0 ≤ prec ∧ nl < prec then prec - nl else 0
  let body := int32 (nl + zpad + if sign ≠ 0 then 1 else 0)
  let wpad := if body < width then int32 (width - body) else 0
  let s := if !f.left && !f.zero then sinkPad s (chr ' ') wpad else s
  let s := if sign ≠ 0 then sinkPutc s sign else s
  let s := if !f.left && f.zero && decide (prec < 0) then sinkPad s (chr '0') wpad else s
  let s := sinkPad s (chr '0') zpad
  let s := sinkWrite s (bufOf numbuf) numbuf.length
  if f.left then sinkPad s (chr ' ') wpad else s

def convUnsigned (conv : UInt8) (f : Flags) (width prec : ℤ) (v : ℕ) (s : Sink) : Sink :=
  let base := if conv = chr 'o' then 8 else if conv = chr 'u' then 10 else 16
  let numbuf := uToStr v base (conv = chr 'X')
  let nl : ℤ := numbuf.length
  let pre :=
    if f.alt = true ∧ (conv = chr 'x' ∨ conv = chr 'X') ∧ v ≠ 0 then
      (if conv = chr 'x' then [chr '0', chr 'x'] else [chr '0', chr 'X'])
    else []
  let plen : ℤ := pre.length
  let zpad := if 0 ≤ prec ∧ nl < prec then prec - nl else 0
  let body := int32 (nl + zpad + plen)
  let wpad := if body < width then int32 (width - body) else 0
  let s := if !f.left && !f.zero then sinkPad s (chr ' ') wpad else s
  let s := sinkWrite s (bufOf pre) pre.length
  let s := if !f.left && f.zero && decide (prec < 0) then sinkPad s (chr '0') wpad else s
  let s := sinkPad s (chr '0') zpad
  let s := sinkWrite s (bufOf numbuf) numbuf.length
  if f.left then sinkPad s (chr ' ') wpad else s

def convChar (f : Flags) (width : ℤ) (c : UInt8) (s : Sink) : Sink :=
  let wpad := if 1 < width then width - 1 else 0
  let s := if !f.left then sinkPad s (chr ' ') wpad else s
  let s := sinkPutc s c
  if f.left then sinkPad s (chr ' ') wpad else s

/-- `strnlen`. -/
def strnlen (p : Buf) : ℕ → ℕ → ℕ
  | 0, i => i
  | n + 1, i => if p i = 0 then i else strnlen p n (i + 1)

/-- `%s` of the bytes from `p` on; an `int` that is passed as a `size_t` is extended with its sign. -/
def convString (f : Flags) (width prec : ℤ) (p : Buf) (s : Sink) : Sink :=
  let n := int32 (strnlen p (if 0 ≤ prec then prec.toNat else 2 ^ 64 - 1) 0)
  let wpad := if n < width then int32 (width - n) else 0
  let s := if !f.left then sinkPad s (chr ' ') wpad else s
  let s := sinkWrite s p (n % 2 ^ 64).toNat
  if f.left then sinkPad s (chr ' ') wpad else s

def convPointer (f : Flags) (width : ℤ) (ptr : ℕ) (s : Sink) : Sink :=
  let numbuf := uToStr ptr 16 false
  let nl : ℤ := numbuf.length
  let wpad := if nl + 2 < width then width - nl - 2 else 0
  let s := if !f.left then sinkPad s (chr ' ') wpad else s
  let s := sinkWrite s (bufOf [chr '0', chr 'x']) 2
  let s := sinkWrite s (bufOf numbuf) numbuf.length
  if f.left then sinkPad s (chr ' ') wpad else s

/-- `"(null)"`. -/
def nullText : List UInt8 := [chr '(', chr 'n', chr 'u', chr 'l', chr 'l', chr ')']

/-! ### `vfmt` -/

/-- The sink, the memory and the next argument. -/
structure Fmt where
  sink : Sink
  mem : Buf
  ap : ℕ

/-- The `switch` over the conversion. -/
def convert (args : ℕ → UInt64) (f : Flags) (width prec : ℤ) (lng : ℕ) (conv : UInt8) (st : Fmt) : Fmt :=
  if conv = chr 'd' ∨ conv = chr 'i' then
    { st with sink := convSigned f width prec (argSigned args lng st.ap) st.sink, ap := st.ap + 1 }
  else if conv = chr 'u' ∨ conv = chr 'o' ∨ conv = chr 'x' ∨ conv = chr 'X' then
    { st with sink := convUnsigned conv f width prec (argUnsigned args lng st.ap) st.sink, ap := st.ap + 1 }
  else if conv = chr 'c' then
    { st with sink := convChar f width (UInt8.ofNat (args st.ap).toNat) st.sink, ap := st.ap + 1 }
  else if conv = chr 's' then
    let str := (args st.ap).toNat
    let p : Buf := if str = 0 then bufOf nullText else fun i => st.mem (str + i)
    { st with sink := convString f width prec p st.sink, ap := st.ap + 1 }
  else if conv = chr 'p' then
    { st with sink := convPointer f width (args st.ap).toNat st.sink, ap := st.ap + 1 }
  else if conv = chr 'n' then
    let out := (args st.ap).toNat
    { st with mem := if out ≠ 0 then storeLe st.mem out 4 st.sink.len else st.mem, ap := st.ap + 1 }
  else if conv = chr '%' then { st with sink := sinkPutc st.sink (chr '%') }
  else { st with sink := sinkPutc (sinkPutc st.sink (chr '%')) conv }

/-- What follows a `%`: the state after it, and the format left over. -/
def directive (args : ℕ → UInt64) (st : Fmt) (fmt : List UInt8) : Fmt × List UInt8 :=
  let (f, fmt) := parseFlags fmt noFlags
  let (f, width, ap, fmt) := parseWidth args st.ap f fmt
  let (prec, ap, fmt) := parsePrec args ap fmt
  let (lng, fmt) := scanLength fmt 0
  match fmt with
  | [] => ({ st with ap := ap }, [])
  | conv :: fmt => (convert args f width prec (min lng 2) conv { st with ap := ap }, fmt)

/-- The loop over the format, in which each round takes a character at least. -/
def vfmtLoop (args : ℕ → UInt64) : ℕ → Fmt → List UInt8 → Fmt
  | 0, st, _ => st
  | _ + 1, st, [] => st
  | n + 1, st, c :: fmt =>
      if c ≠ chr '%' then vfmtLoop args n { st with sink := sinkPutc st.sink c } fmt
      else
        let (st, fmt) := directive args st fmt
        vfmtLoop args n st fmt

/-- `vfmt`: what it returns, and the state after it. -/
def vfmt (args : ℕ → UInt64) (st : Fmt) (fmt : List UInt8) : ℤ × Fmt :=
  let st := vfmtLoop args fmt.length st fmt
  let st := { st with sink := sinkFlush st.sink }
  (int32 st.sink.len, st)

/-! ### The functions on top of it -/

/-- `__vfmt_buf`. -/
def vfmtBuf (args : ℕ → UInt64) (mem : Buf) (buf : Option Buf) (n : ℕ) (fmt : List UInt8) : ℤ × Fmt :=
  let (r, st) := vfmt args ⟨⟨buf, n, 0, -1, fun _ => 0, 0, []⟩, mem, 0⟩ fmt
  match st.sink.buf with
  | some b =>
      if n ≠ 0 then
        let last := if st.sink.len < n then st.sink.len else n - 1
        (r, { st with sink := { st.sink with buf := some (Function.update b last 0) } })
      else (r, st)
  | none => (r, st)

/-- `snprintf`. -/
def snprintf (args : ℕ → UInt64) (mem : Buf) (buf : Option Buf) (n : ℕ) (fmt : List UInt8) : ℤ × Fmt :=
  vfmtBuf args mem buf n fmt

/-- `sprintf`. -/
def sprintf (args : ℕ → UInt64) (mem : Buf) (buf : Option Buf) (fmt : List UInt8) : ℤ × Fmt :=
  vfmtBuf args mem buf (2 ^ 64 - 1) fmt

def vfd (args : ℕ → UInt64) (mem : Buf) (fd : ℤ) (fmt : List UInt8) : ℤ × Fmt :=
  vfmt args ⟨⟨none, 0, 0, fd, fun _ => 0, 0, []⟩, mem, 0⟩ fmt

/-- `printf`. -/
def printf (args : ℕ → UInt64) (mem : Buf) (fmt : List UInt8) : ℤ × Fmt := vfd args mem 1 fmt

end LizardOs.User
