import LizardOs.Sched.Task
import LizardOs.Syscall.Abi

/-!
# Canonical input

The line editor of `tty.c`, the ring it hands completed lines to, and `sys_read(0)`, which takes bytes out of the
ring or blocks.  The indices of the ring are 32-bit counters that run freely and are reduced where the ring is
read or written.  What the editor draws on the screen is left out.
-/

namespace LizardOs.Tty

open LizardOs.Sched LizardOs.Syscall

def KEY_BACKSAPCE : UInt8 := 0x0E
def KEY_ENTER : UInt8 := 0x1C
def STDIN_RING_SIZE : UInt32 := 1024
def TTY_LINE_MAX : ℕ := 256

/-- `convertScancode`; the entries behind the last of the list are 0. -/
def convertScancode (scancode : UInt8) : UInt8 :=
  [0, 27, 49, 50, 51, 52, 53, 54, 55, 56, 57, 48, 45, 61, 8, 9, 113, 119, 101, 114, 116, 121, 117, 105, 111, 112, 91,
    93, 10, 0, 97, 115, 100, 102, 103, 104, 106, 107, 108, 59, 39, 96, 0, 92, 122, 120, 99, 118, 98, 110, 109, 44, 46,
    47, 0, 42, 0, 32, 0, 0, 0, 0, 0, 0, 0, 0, 0, 0, 0, 0, 0, 0, 0, 0, 45, 0, 0, 0, 43].getD scancode.toNat 0

/-- `is_ascii_character`. -/
def isAsciiCharacter (c : UInt8) : Bool := decide (32 ≤ c ∧ c ≤ 126)

/-- The ring, its two indices, and the line being edited. -/
structure Stdin where
  stdinRing : ℕ → UInt8
  stdinHead : UInt32
  stdinTail : UInt32
  ttyLine : List UInt8

namespace Stdin

/-- `stdin_push`. -/
def stdinPush (t : Stdin) (c : UInt8) : Stdin :=
  let t := if STDIN_RING_SIZE ≤ t.stdinHead - t.stdinTail then { t with stdinTail := t.stdinTail + 1 } else t
  { t with
    stdinRing := Function.update t.stdinRing (t.stdinHead % STDIN_RING_SIZE).toNat c
    stdinHead := t.stdinHead + 1 }

/-- `tty_stdin_available`. -/
def ttyStdinAvailable (t : Stdin) : Bool := decide (t.stdinHead ≠ t.stdinTail)

/-- `tty_stdin_read`: the bytes it stores, and the ring after it. -/
def ttyStdinRead (t : Stdin) : ℕ → List UInt8 × Stdin
  | 0 => ([], t)
  | max + 1 =>
      if t.stdinTail ≠ t.stdinHead then
        let c := t.stdinRing (t.stdinTail % STDIN_RING_SIZE).toNat
        let (rest, t') := ttyStdinRead { t with stdinTail := t.stdinTail + 1 } max
        (c :: rest, t')
      else ([], t)

/-- The line goes to the ring, with a newline behind it. -/
def commitLine (t : Stdin) : Stdin :=
  { (t.ttyLine.foldl stdinPush t).stdinPush 10 with ttyLine := [] }

/-- What `tty_handler_input` does to the line and the ring. -/
def handlerInput (t : Stdin) (scancode : UInt8) : Stdin :=
  if scancode = KEY_BACKSAPCE then
    if 0 < t.ttyLine.length then { t with ttyLine := t.ttyLine.dropLast } else t
  else if scancode = KEY_ENTER then t.commitLine
  else if scancode < 0x80 then
    if isAsciiCharacter (convertScancode scancode) = true ∧ t.ttyLine.length < TTY_LINE_MAX - 1 then
      { t with ttyLine := t.ttyLine ++ [convertScancode scancode] }
    else t
  else t

end Stdin

/-- The kernel and its console. -/
structure Console where
  kernel : Kernel
  tty : Stdin

/-- `tty_handler_input`; Enter wakes the tasks that wait for input. -/
def Console.ttyHandlerInput (s : Console) (scancode : UInt8) : Console where
  kernel := if scancode = KEY_ENTER then s.kernel.taskWakeAll .input else s.kernel
  tty := s.tty.handlerInput scancode

/-- One pass of `sys_read(0, ubuf, len)` inside the gate: an answer with the bytes stored, or a block. -/
def Console.sysRead (s : Console) (ubuf len : UInt64) : Option (ℤ × List UInt8) × Console :=
  if userPtrOk ubuf len = false then (some (-EFAULT, []), s)
  else if len = 0 then (some (0, []), s)
  else if s.tty.ttyStdinAvailable = false then (none, { s with kernel := s.kernel.taskBlock .input })
  else
    let (bytes, tty) := s.tty.ttyStdinRead len.toNat
    (some (bytes.length, bytes), { s with tty := tty })

end LizardOs.Tty
