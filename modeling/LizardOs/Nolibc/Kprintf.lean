import LizardOs.Lib.Bytes
import LizardOs.Nolibc.NumberText

/-!
# Formatted output in the kernel

`kvprintf` in `nolibc/stdio.c`, which prints on the console, and `sprintf` in `nolibc/string.c`, which writes into a
buffer of the caller.  A format string is the list of its characters, without the NUL.  The arguments are words of 64
bits, as the calling convention of variadic functions has them, and `str p` is the string at `p`, without its NUL.  A
store outside of a local array, or a read behind the end of the format, has no result.  Numbers of type `int` wrap
around.
-/

namespace LizardOs.Nolibc

open LizardOs.Lib LizardOs.User

def INT_MAX : ℤ := 2 ^ 31 - 1

def INT_MIN : ℤ := -2 ^ 31

/-- `kprint`, behind the bytes `out`: what it returns, and the bytes given to `tty_putchar`, which returns its byte as a
`char`, and that is `EOF` for 255. -/
def kprint : List UInt8 → List UInt8 → Bool × List UInt8
  | [], out => (true, out)
  | c :: data, out => if c = 255 then (false, out ++ [c]) else kprint data (out ++ [c])

/-! ### `kvprintf` -/

/-- The bytes given to `tty_putchar`, `written`, and the next argument. -/
structure Kv where
  out : List UInt8
  written : ℤ
  ap : ℕ

/-- `maxrem`. -/
def Kv.maxrem (st : Kv) : ℕ := (int32 (INT_MAX - st.written) % 2 ^ 64).toNat

/-- How a round of the loop ends: it goes on behind what it used of the format, or `kvprintf` returns −1. -/
inductive Round where
  | next (st : Kv) (format : List UInt8)
  | fail (out : List UInt8)

/-- `if (!kprint(data, size)) return -1; written += amount;`, with the format that is left. -/
def Kv.print (st : Kv) (data : List UInt8) (amount : ℕ) (format : List UInt8) : Round :=
  let r := kprint data st.out
  if r.1 = true then .next { st with out := r.2, written := int32 (st.written + amount) } format else .fail r.2

/-- A number: `size` characters of an array of zeros that has one more, filled by `fill`; `extra` is written already. -/
def Kv.number (st : Kv) (size extra : ℕ) (fill : List UInt8 → Option (List UInt8)) (format : List UInt8) : Option Round :=
  if st.maxrem = 0 then some (.fail st.out)
  else (fill (List.replicate (size + 1) 0)).map fun str => st.print (str.take size) (size + extra) format

/-- The branch for `%d`. -/
def Kv.decimal (st : Kv) (val : ℤ) (format : List UInt8) : Option Round :=
  let uval : UInt64 := if val < 0 then UInt64.ofInt (int32 (-val)) else UInt64.ofInt val
  let size := getUnsigned2stringFinalSize uval
  let size := if val < 0 then size + 1 else size
  st.number size 0
    (fun str =>
      if val < 0 then
        (store str 0 (chr '-')).bind fun str => (unsignedToString uval (str.drop 1)).map fun rest => str.take 1 ++ rest
      else unsignedToString uval str)
    format

section

variable (args : ℕ → UInt64) (str : UInt64 → List UInt8)

/-- The branches for a directive, of which `format` is what follows the `%`. -/
def kvDirective (st : Kv) (format : List UInt8) : Option Round :=
  let arg := args st.ap
  let st' : Kv := { st with ap := st.ap + 1 }
  if format.head? = some (chr 'c') then
    if st'.maxrem = 0 then some (.fail st'.out) else some (st'.print [arg.toUInt8] 1 (format.drop 1))
  else if format.head? = some (chr 's') then
    let s := if arg = 0 then nullText else str arg
    if st'.maxrem < s.length then some (.fail st'.out) else some (st'.print s s.length (format.drop 1))
  else if format.take 3 = [chr 'l', chr 'l', chr 'u'] then
    st'.number (getUnsigned2stringFinalSize arg) 0 (unsignedToString arg) (format.drop 3)
  else if format.head? = some (chr 'u') then
    let number := arg.toUInt32.toUInt64
    st'.number (getUnsigned2stringFinalSize number) 0 (unsignedToString number) (format.drop 1)
  else if format.head? = some (chr 'd') then st'.decimal (argInt args st.ap) (format.drop 1)
  else if format.head? = some (chr 'x') then
    st'.number (getUnsigned2hexFinalSize arg) 0 (unsignedToHexstring arg) (format.drop 1)
  else if format.head? = some (chr 'p') then
    -- `0x` comes first, and what `kprint` returns for it is not looked at
    if st'.maxrem = 0 then some (.fail st'.out)
    else
      { st' with out := (kprint [chr '0', chr 'x'] st'.out).2 }.number (getUnsigned2hexFinalSize arg) 2
        (unsignedToHexstring arg) (format.drop 1)
  else if st.maxrem < format.length + 1 then some (.fail st.out)
  else some (st.print (chr '%' :: format) (format.length + 1) [])

/-- One round of the loop over the format, which begins with `c`. -/
def kvRound (st : Kv) (c : UInt8) (format : List UInt8) : Option Round :=
  if c ≠ chr '%' ∨ format.head? = some (chr '%') then
    -- the characters up to the next `%`; of `%%` the second one is the first of them
    let text := if c = chr '%' then format else c :: format
    let amount := 1 + (text.tail.takeWhile fun c => decide (c ≠ chr '%')).length
    if st.maxrem < amount then some (.fail st.out) else some (st.print (text.take amount) amount (text.drop amount))
  else kvDirective args str st format

/-- The loop, in which each round takes a character at least: what `kvprintf` returns, and the bytes printed. -/
def kvLoop : ℕ → Kv → List UInt8 → Option (ℤ × List UInt8)
  | 0, st, _ => some (st.written, st.out)
  | _ + 1, st, [] => some (st.written, st.out)
  | n + 1, st, c :: format =>
      (kvRound args str st c format).bind fun r =>
        match r with
        | .next st format => kvLoop n st format
        | .fail out => some (-1, out)

/-- The loop from a place in the format on. -/
def kvRun (st : Kv) (format : List UInt8) : Option (ℤ × List UInt8) := kvLoop args str format.length st format

/-- `kvprintf`. -/
def kvprintf (format : List UInt8) : Option (ℤ × List UInt8) := kvRun args str ⟨[], 0, 0⟩ format

end

/-! ### `sprintf` -/

/-- The caller's buffer, how far `buf_ptr` is into it, and the next argument. -/
structure Sp where
  buffer : Buf
  len : ℕ
  ap : ℕ

/-- `*buf_ptr++ = c`. -/
def Sp.putc (st : Sp) (c : UInt8) : Sp := { st with buffer := Function.update st.buffer st.len c, len := st.len + 1 }

def Sp.puts (st : Sp) (s : List UInt8) : Sp := s.foldl putc st

/-- The characters of an array up to its first NUL, which a loop over a string reads. -/
def untilNul : List UInt8 → Option (List UInt8)
  | [] => none
  | c :: a => if c = 0 then some [] else (untilNul a).map (c :: ·)

section

variable (args : ℕ → UInt64) (str : UInt64 → List UInt8) (junk : ℕ → Vector UInt8 20)

/-- The branches for the character behind a `%`; the local buffers of 20 bytes hold what the stack held. -/
def spDirective (st : Sp) (c : UInt8) : Option Sp :=
  let arg := args st.ap
  let st' : Sp := { st with ap := st.ap + 1 }
  if c = chr 's' then some (st'.puts (str arg))
  else if c = chr 'd' then
    let val := argInt args st.ap
    (unsignedToString (UInt64.ofInt (if val < 0 then int32 (-val) else val)) (junk st.ap).toList).bind fun num =>
      (untilNul num).map (if val < 0 then st'.putc (chr '-') else st').puts
  else if c = chr 'u' then
    (unsignedToString arg.toUInt32.toUInt64 (junk st.ap).toList).bind fun num => (untilNul num).map st'.puts
  else if c = chr 'x' then
    (unsignedToHexstring arg.toUInt32.toUInt64 (junk st.ap).toList).bind fun hex => (untilNul hex).map st'.puts
  else if c = chr 'c' then some (st'.putc arg.toUInt8)
  else some ((st.putc (chr '%')).putc c)

/-- The loop over the format; a `%` at its end is followed by the NUL, and the loop goes on behind that. -/
def spLoop : List UInt8 → Sp → Option Sp
  | [], st => some st
  | [c], st => if c = chr '%' then none else some (st.putc c)
  | c :: d :: format, st =>
      if c = chr '%' then (spDirective args str junk st d).bind (spLoop format) else spLoop (d :: format) (st.putc c)

/-- The kernel's `sprintf`: what it returns, and the buffer. -/
def sprintf (format : List UInt8) (buffer : Buf) : Option (ℤ × Buf) :=
  (spLoop args str junk format ⟨buffer, 0, 0⟩).map fun st => (int32 st.len, Function.update st.buffer st.len 0)

end

end LizardOs.Nolibc
