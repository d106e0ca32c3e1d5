import LizardOs.Lib.Bytes
import LizardOs.Mm.Buddy

/-!
# The system-call interface

What all handlers share: the numbers of the errors, registers read as C integers, and the check of a pointer that
comes from user space.  A register is a 64-bit pattern.
-/

namespace LizardOs.Syscall

open LizardOs.Lib LizardOs.Mm

def EPERM : ℤ := 1
def ENOENT : ℤ := 2
def EIO : ℤ := 5
def EBADF : ℤ := 9
def ENOMEM : ℤ := 12
def EFAULT : ℤ := 14
def EEXIST : ℤ := 17
def ENOTDIR : ℤ := 20
def EISDIR : ℤ := 21
def EINVAL : ℤ := 22
def ERANGE : ℤ := 34
def ENAMETOOLONG : ℤ := 36
def ENOTEMPTY : ℤ := 39

/-- `sizeof(struct dirent)`. -/
def DIRENT_SIZE : ℕ := 280

/-- A register as a `long`. -/
def long (r : UInt64) : ℤ := asI64 r.toNat

/-- `(int)r`. -/
def int (r : UInt64) : ℤ := if r.toNat % 2 ^ 32 < 2 ^ 31 then (r.toNat % 2 ^ 32 : ℕ) else (r.toNat % 2 ^ 32 : ℕ) - 2 ^ 32

/-- `user_ptr_ok`. -/
def userPtrOk (p len : UInt64) : Bool :=
  if p = 0 ∨ long len < 0 then false
  else if BOOT_HHDM_BASE ≤ p.toNat then false
  else !decide (p + len < p)

end LizardOs.Syscall
