import LizardOs.Fat.Files
import LizardOs.Syscall.Abi
import LizardOs.Vfs.Paths

/-!
# System calls on files

The part of `syscall.c` that works on open files and paths, over any file system.  A descriptor of a task leads to an
open file through the task's table.  What a handler reads from user memory comes with the call: the memory a path lies
in, or the contents of the buffer.
-/

namespace LizardOs.Syscall

open LizardOs.Lib LizardOs.Vfs

def TASK_FD_BASE : ℕ := 3
def TASK_MAX_FDS : ℕ := 16
def S_IFDIR_MASK : ℕ := 0o40000

/-! ### Strings of the caller -/

/-- The string at an address, if it ends within `n` bytes. -/
def userStr (mem : Buf) (p : ℕ) : ℕ → Option Name
  | 0 => none
  | n + 1 => if mem p = 0 then some [] else (userStr mem (p + 1) n).map fun s => mem p :: s

/-- `copy_user_str`; an error is the number it returns. -/
def copyUserStr (mem : Buf) (uptr : UInt64) (max : ℕ) : Except ℤ Name :=
  if userPtrOk uptr (UInt64.ofNat max) = false then .error (-EFAULT)
  else
    match userStr mem uptr.toNat max with
    | none => .error (-EINVAL)
    | some s => .ok s

/-- The path of a call: copied in and folded against the working directory. -/
def pathFrom (cwd : Name) (mem : Buf) (upath : UInt64) (max outsz : ℕ) : Except ℤ Name :=
  match copyUserStr mem upath max with
  | .error e => .error e
  | .ok path =>
      match vfsResolvePath cwd path outsz with
      | none => .error (-ENAMETOOLONG)
      | some abspath => .ok abspath

def SPAWN_MAX_ARGS : ℕ := 32

/-- `sizeof(argbuf)`. -/
def ARGBUF_SIZE : ℕ := 1024

/-- The pointer in a slot of the caller's `argv`. -/
def argSlot (mem : Buf) (uargv : UInt64) (argc : ℕ) : Except ℤ UInt64 :=
  let slot := uargv + UInt64.ofNat (8 * argc)
  if userPtrOk slot 8 = false then .error (-EFAULT) else .ok (UInt64.ofNat (loadLe mem slot.toNat 8))

/-- The loop of `sys_spawn` over `argv`, at slot `argc`: `off` bytes of `argbuf` are in use, and `left` strings may
follow. -/
def copyArgs (mem : Buf) (uargv : UInt64) : ℕ → ℕ → ℕ → Except ℤ (List Name)
  | 0, argc, _ =>
      match argSlot mem uargv argc with
      | .error e => .error e
      | .ok uptr => if uptr = 0 then .ok [] else .error (-EINVAL)
  | left + 1, argc, off =>
      match argSlot mem uargv argc with
      | .error e => .error e
      | .ok uptr =>
          if uptr = 0 then .ok []
          else
            match copyUserStr mem uptr (ARGBUF_SIZE - off) with
            | .error e => .error e
            | .ok arg =>
                match copyArgs mem uargv left (argc + 1) (off + arg.length + 1) with
                | .error e => .error e
                | .ok rest => .ok (arg :: rest)

/-- The strings that `sys_spawn` hands to `spawn`; without an array, none. -/
def spawnArgs (mem : Buf) (uargv : UInt64) : Except ℤ (List Name) :=
  if uargv = 0 then .ok [] else copyArgs mem uargv SPAWN_MAX_ARGS 0 0

/-- What `sys_spawn` takes from its caller before it calls `spawn`: the folded path, and the strings. -/
def spawnRequest (cwd : Name) (mem : Buf) (upath uargv : UInt64) : Except ℤ (Name × List Name) :=
  match pathFrom cwd mem upath 128 256 with
  | .error e => .error e
  | .ok abspath =>
      match spawnArgs mem uargv with
      | .error e => .error e
      | .ok argv => .ok (abspath, argv)

/-! ### Descriptors -/

/-- The files as the system calls see them: the virtual file system, and the descriptors and the working directory of
each task.  `given` are the files that were put into a table, each with its task, latest first. -/
structure FileState (φ ι : Type) where
  vfs : VfsState φ ι
  fdTable : ℕ → ℕ → Option ℕ
  cwd : ℕ → Name
  given : List (ℕ × ℕ)

variable {φ ι : Type} (ops : FsOps φ ι)

namespace FileState

/-- The slot of a descriptor. -/
def fdSlot (fd : UInt64) : Option ℕ :=
  if long fd < TASK_FD_BASE ∨ TASK_FD_BASE + TASK_MAX_FDS ≤ long fd then none
  else some (long fd - TASK_FD_BASE).toNat

/-- `fd_get` for a task. -/
def fdGet (s : FileState φ ι) (t : ℕ) (fd : UInt64) : Option ℕ := (fdSlot fd).bind fun i => s.fdTable t i

/-- Set one slot of a task. -/
def setFd (s : FileState φ ι) (t i : ℕ) (f : Option ℕ) : FileState φ ι :=
  { s with fdTable := Function.update s.fdTable t (Function.update (s.fdTable t) i f) }

/-- The slot that `fd_alloc` takes. -/
def freeSlot (s : FileState φ ι) (t : ℕ) : Option ℕ :=
  (List.range TASK_MAX_FDS).find? fun i => (s.fdTable t i).isNone

/-- Close the file of a slot, if there is one. -/
def closeSlot (t : ℕ) (s : FileState φ ι) (i : ℕ) : FileState φ ι :=
  match s.fdTable t i with
  | none => s
  | some id => { s with vfs := s.vfs.vfsClose ops id }.setFd t i none

/-- `task_close_all_fds`. -/
def taskCloseAllFds (s : FileState φ ι) (t : ℕ) : FileState φ ι := (List.range TASK_MAX_FDS).foldl (closeSlot ops t) s

/-! ### The calls -/

/-- The path of a call of a task. -/
def userPath (s : FileState φ ι) (t : ℕ) (mem : Buf) (upath : UInt64) (max outsz : ℕ) : Except ℤ Name :=
  pathFrom (s.cwd t) mem upath max outsz

/-- `sys_open`. -/
def sysOpen (s : FileState φ ι) (t : ℕ) (mem : Buf) (upath flags : UInt64) : ℤ × FileState φ ι :=
  match s.userPath t mem upath 128 256 with
  | .error e => (e, s)
  | .ok abspath =>
      match s.vfs.vfsOpen ops abspath (flags.toNat % 2 ^ 32) with
      | (none, vfs) => (-ENOENT, { s with vfs := vfs })
      | (some id, vfs) =>
          match s.freeSlot t with
          | none => (-ENOMEM, { s with vfs := vfs.vfsClose ops id })
          | some i => ((TASK_FD_BASE + i : ℕ), { s with vfs := vfs, given := (t, id) :: s.given }.setFd t i (some id))

/-- `sys_close`. -/
def sysClose (s : FileState φ ι) (t : ℕ) (fd : UInt64) : ℤ × FileState φ ι :=
  match fdSlot fd with
  | none => (-EBADF, s)
  | some i =>
      match s.fdTable t i with
      | none => (-EBADF, s)
      | some _ => (0, closeSlot ops t s i)

/-- `sys_write`; `buf` is what the user buffer holds. -/
def sysWrite (s : FileState φ ι) (t : ℕ) (fd ubuf len : UInt64) (buf : Buf) : ℤ × FileState φ ι :=
  if userPtrOk ubuf len = false then (-EFAULT, s)
  else if long fd = 1 ∨ long fd = 2 then (long len, s)
  else
    match s.fdGet t fd with
    | none => (-EBADF, s)
    | some id =>
        let r := s.vfs.vfsWrite ops id buf len.toNat
        (r.1, { s with vfs := r.2 })

/-- `sys_read`: the return value and the user buffer; `line` is what the terminal has queued. -/
def sysRead (s : FileState φ ι) (t : ℕ) (fd ubuf len : UInt64) (buf : Buf) (line : Name) : ℤ × Buf × FileState φ ι :=
  if userPtrOk ubuf len = false then (-EFAULT, buf, s)
  else if long len = 0 then (0, buf, s)
  else if long fd = 0 then
    let got := line.take len.toNat
    (got.length, splice buf 0 (fun j => got.getD j 0) got.length, s)
  else if long fd = 1 ∨ long fd = 2 then (-EBADF, buf, s)
  else
    match s.fdGet t fd with
    | none => (-EBADF, buf, s)
    | some id =>
        let r := s.vfs.vfsRead ops id buf len.toNat
        (r.1, r.2.1, { s with vfs := r.2.2 })

/-- The base of `sys_lseek`, as a 64-bit pattern. -/
def seekBase (s : FileState φ ι) (file : File ι) (whence : UInt64) : Option ℕ :=
  if long whence = 0 then some 0
  else if long whence = 1 then some file.offset
  else if long whence = 2 then some (ops.size s.vfs.fs file.inode)
  else none

/-- `sys_lseek`. -/
def sysLseek (s : FileState φ ι) (t : ℕ) (fd off whence : UInt64) : ℤ × FileState φ ι :=
  match s.fdGet t fd with
  | none => (-EBADF, s)
  | some id =>
      match s.vfs.fileAt id with
      | none => (-EBADF, s)
      | some file =>
          match s.seekBase ops file whence with
          | none => (-EINVAL, s)
          | some base =>
              let pos := (base + off.toNat) % 2 ^ 64
              if asI64 pos < 0 then (-EINVAL, s)
              else (asI64 pos, { s with vfs := s.vfs.setOffset id pos })

/-- `sys_readdir`; the records go to the user array, which nothing here reads. -/
def sysReaddir (s : FileState φ ι) (t : ℕ) (fd ubuf max : UInt64) : ℤ × FileState φ ι :=
  if long max ≤ 0 then (-EINVAL, s)
  else if userPtrOk ubuf (max * UInt64.ofNat DIRENT_SIZE) = false then (-EFAULT, s)
  else
    match s.fdGet t fd with
    | none => (-EBADF, s)
    | some id =>
        match s.vfs.fileAt id with
        | none => (-EBADF, s)
        | some file =>
            match ops.readdir file.inode with
            | none => (-ENOTDIR, s)
            | some readdir =>
                let r := readdir s.vfs.fs file.offset (int max)
                (r.2.1, { s with vfs := { s.vfs with fs := r.2.2 }.setOffset id r.1 })

/-- Whether a path leads to something, and whether that is a directory. -/
def probe (vfs : VfsState φ ι) (path : Name) : Option Bool × VfsState φ ι :=
  match vfs.vfsPathLookup ops path with
  | (none, vfs) => (none, vfs)
  | (some d, vfs) =>
      let isDir :=
        match vfs.inodeOf d with
        | none => false
        | some inode => decide (ops.mode vfs.fs inode &&& S_IFDIR_MASK ≠ 0)
      (some isDir, vfs.dentryPut d)

/-- `sys_chdir`. -/
def sysChdir (s : FileState φ ι) (t : ℕ) (mem : Buf) (upath : UInt64) : ℤ × FileState φ ι :=
  match s.userPath t mem upath TASK_CWD_MAX TASK_CWD_MAX with
  | .error e => (e, s)
  | .ok abspath =>
      match probe ops s.vfs abspath with
      | (none, vfs) => (-ENOENT, { s with vfs := vfs })
      | (some false, vfs) => (-ENOTDIR, { s with vfs := vfs })
      | (some true, vfs) => (0, { s with vfs := vfs, cwd := Function.update s.cwd t abspath })

/-- The path up to its last slash. -/
def parentPath (path : Name) : Name :=
  let rest := path.take (path.length - 1 - path.reverse.idxOf 47)
  if rest = [] then path.take 1 else rest

/-- `sys_mkdir`. -/
def sysMkdir (s : FileState φ ι) (t : ℕ) (mem : Buf) (upath mode : UInt64) : ℤ × FileState φ ι :=
  match s.userPath t mem upath 128 256 with
  | .error e => (e, s)
  | .ok abspath =>
      if abspath.length ≤ 1 then (-EEXIST, s)
      else
        match probe ops s.vfs abspath with
        | (some _, vfs) => (-EEXIST, { s with vfs := vfs })
        | (none, vfs) =>
            match probe ops vfs (parentPath abspath) with
            | (none, vfs) => (-ENOENT, { s with vfs := vfs })
            | (some false, vfs) => (-ENOTDIR, { s with vfs := vfs })
            | (some true, vfs) =>
                match vfs.vfsMkdir ops abspath (mode.toNat % 2 ^ 32) with
                | (rc, vfs) => (if rc ≠ 0 then - EIO else 0, { s with vfs := vfs })

/-- `do_remove`. -/
def doRemove (s : FileState φ ι) (t : ℕ) (mem : Buf) (upath : UInt64) (wantDir : Bool) : ℤ × FileState φ ι :=
  match s.userPath t mem upath 128 256 with
  | .error e => (e, s)
  | .ok abspath =>
      if abspath.length ≤ 1 then (-EPERM, s)
      else
        match probe ops s.vfs abspath with
        | (none, vfs) => (-ENOENT, { s with vfs := vfs })
        | (some isDir, vfs) =>
            if wantDir = true ∧ isDir = false then (-ENOTDIR, { s with vfs := vfs })
            else if wantDir = false ∧ isDir = true then (-EISDIR, { s with vfs := vfs })
            else if wantDir = true then
              match vfs.vfsRmdir ops abspath with
              | (rc, vfs) => (if rc = 0 then 0 else -ENOTEMPTY, { s with vfs := vfs })
            else
              match vfs.vfsUnlink ops abspath with
              | (rc, vfs) => (if rc = 0 then 0 else - EIO, { s with vfs := vfs })

/-- `sys_unlink`. -/
def sysUnlink (s : FileState φ ι) (t : ℕ) (mem : Buf) (upath : UInt64) : ℤ × FileState φ ι :=
  s.doRemove ops t mem upath false

/-- `sys_rmdir`. -/
def sysRmdir (s : FileState φ ι) (t : ℕ) (mem : Buf) (upath : UInt64) : ℤ × FileState φ ι :=
  s.doRemove ops t mem upath true

/-- One `read_at` of `load_elf`. -/
def readAt (id : ℕ) (vfs : VfsState φ ι) (place : ℕ × ℕ) : VfsState φ ι :=
  ((vfs.setOffset id place.1).vfsRead ops id (fun _ => 0) place.2).2.2

/-- What `spawn` does with files: open the program, read from the places its headers name, and close it.  The child
starts in the working directory of the task that spawns it. -/
def spawn (s : FileState φ ι) (t : ℕ) (abspath : Name) (child : ℕ) (places : List (ℕ × ℕ)) : FileState φ ι :=
  match s.vfs.vfsOpen ops abspath O_RDONLY with
  | (none, vfs) => { s with vfs := vfs }
  | (some id, vfs) =>
      { s with
        vfs := (places.foldl (readAt ops id) vfs).vfsClose ops id
        cwd := Function.update s.cwd child (s.cwd t) }

/-- `sys_spawn`. -/
def sysSpawn (s : FileState φ ι) (t : ℕ) (mem : Buf) (upath uargv : UInt64) (child : ℕ) (places : List (ℕ × ℕ)) :
    FileState φ ι :=
  match spawnRequest (s.cwd t) mem upath uargv with
  | .error _ => s
  | .ok (abspath, _) => s.spawn ops t abspath child places

end FileState

/-! ### One call -/

/-- A system call that works on files, with what it finds in user memory.  `spawn` also says which task it makes and
where it reads the program, `read` what the terminal has queued. -/
inductive FileCall where
  | open (mem : Buf) (upath flags : UInt64)
  | close (fd : UInt64)
  | read (fd ubuf len : UInt64) (buf : Buf) (line : Name)
  | write (fd ubuf len : UInt64) (buf : Buf)
  | lseek (fd off whence : UInt64)
  | readdir (fd ubuf max : UInt64)
  | chdir (mem : Buf) (upath : UInt64)
  | mkdir (mem : Buf) (upath mode : UInt64)
  | unlink (mem : Buf) (upath : UInt64)
  | rmdir (mem : Buf) (upath : UInt64)
  | spawn (mem : Buf) (upath uargv : UInt64) (child : ℕ) (places : List (ℕ × ℕ))
  | exit

/-- The state after a call of a task; for `exit`, before `task_exit`. -/
def FileState.exec (s : FileState φ ι) (t : ℕ) : FileCall → FileState φ ι
  | .open mem upath flags => (s.sysOpen ops t mem upath flags).2
  | .close fd => (s.sysClose ops t fd).2
  | .read fd ubuf len buf line => (s.sysRead ops t fd ubuf len buf line).2.2
  | .write fd ubuf len buf => (s.sysWrite ops t fd ubuf len buf).2
  | .lseek fd off whence => (s.sysLseek ops t fd off whence).2
  | .readdir fd ubuf max => (s.sysReaddir ops t fd ubuf max).2
  | .chdir mem upath => (s.sysChdir ops t mem upath).2
  | .mkdir mem upath mode => (s.sysMkdir ops t mem upath mode).2
  | .unlink mem upath => (s.sysUnlink ops t mem upath).2
  | .rmdir mem upath => (s.sysRmdir ops t mem upath).2
  | .spawn mem upath uargv child places => s.sysSpawn ops t mem upath uargv child places
  | .exit => s.taskCloseAllFds ops t

end LizardOs.Syscall
