import LizardOs.Lib.Bytes
import LizardOs.Mm.PageTable

/-!
# Loading a program

`loader.c`, and the part of `task_create` that builds the address space.  A file is known by what `vfs_read` answers
for an offset and a count.  The loader fills the pages of the new task through the direct map, so a byte written to a
page is a byte of the frame, as an entry is eight bytes of a table.  `none` stands for a fault of the kernel: no frame
is left, or a page of the new task's stack is not there.
-/

namespace LizardOs.Proc

open LizardOs.Lib LizardOs.Mm

def MAX_PHDRS : ℕ := 16
def MAX_ARGS : ℕ := 32
def PT_LOAD : ℕ := 1
def ET_EXEC : ℕ := 2
def USER_STACK_BASE : ℕ := 0x700000000000
def USER_STACK_PAGES : ℕ := 64

/-- `PAGE_PRESENT | PAGE_WRITABLE | PAGE_USER`. -/
def userFlags : ℕ := PAGE_PRESENT ||| PAGE_WRITABLE ||| PAGE_USER

/-! ### Reading the file -/

/-- An open file, by what `vfs_read` gives for an offset and a count: nothing at the end and on an error. -/
structure ImageFile where
  read : ℕ → ℕ → List UInt8
  short : ∀ off n, (read off n).length ≤ n

namespace ImageFile

/-- The loop of `read_at`: whether all was read, and the bytes that were.  A round reads a byte at least. -/
def readLoop (f : ImageFile) : ℕ → ℕ → ℕ → Bool × List UInt8
  | 0, _, len => (decide (len = 0), [])
  | fuel + 1, off, len =>
      if len = 0 then (true, [])
      else if f.read off len = [] then (false, [])
      else
        let r := readLoop f fuel ((off + (f.read off len).length) % 2 ^ 64) (len - (f.read off len).length)
        (r.1, f.read off len ++ r.2)

/-- `read_at`. -/
def readAt (f : ImageFile) (off len : ℕ) : Bool × List UInt8 := f.readLoop len off len

end ImageFile

/-- The little-endian field of `n` bytes at an offset. -/
def field (bs : List UInt8) (off n : ℕ) : ℕ := ((bs.drop off).take n).foldr (fun b acc => b.toNat + 256 * acc) 0

/-- The fields of `elf64_phdr_t` that the loader reads. -/
structure Phdr where
  p_type : ℕ
  p_offset : ℕ
  p_vaddr : ℕ
  p_filesz : ℕ
  p_memsz : ℕ
  deriving DecidableEq

/-- `sizeof(elf64_ehdr_t)`. -/
def EHDR_SIZE : ℕ := 64

/-- `sizeof(elf64_phdr_t)`. -/
def PHDR_SIZE : ℕ := 56

/-- One program header in its 56 bytes. -/
def Phdr.ofBytes (bs : List UInt8) : Phdr where
  p_type := field bs 0 4
  p_offset := field bs 8 8
  p_vaddr := field bs 16 8
  p_filesz := field bs 32 8
  p_memsz := field bs 40 8

/-- What `load_elf` does before it maps anything: the entry point and the program headers, or nothing where it gives
up. -/
def programHeaders (f : ImageFile) : Option (ℕ × List Phdr) :=
  let ehdr := f.readAt 0 EHDR_SIZE
  if ehdr.1 = false then none
  else if ehdr.2.take 4 ≠ [0x7f, 0x45, 0x4c, 0x46] then none
  else if field ehdr.2 16 2 ≠ ET_EXEC then none
  else if MAX_PHDRS < field ehdr.2 56 2 then none
  else
    let phdr := f.readAt (field ehdr.2 32 8) (field ehdr.2 56 2 * PHDR_SIZE)
    if phdr.1 = false then none
    else some (field ehdr.2 24 8,
      (List.range (field ehdr.2 56 2)).map fun i => Phdr.ofBytes (phdr.2.drop (i * PHDR_SIZE)))

/-! ### Writing to frames -/

/-- Put a byte at place `k` of a number. -/
def putByte (e k : ℕ) (b : UInt8) : ℕ := e / 256 ^ (k + 1) * 256 ^ (k + 1) + b.toNat * 256 ^ k + e % 256 ^ k

/-- `memset(frame, 0, PAGE_SIZE)`. -/
def clearFrame (s : PageMem) (frame : ℕ) : PageMem := { s with entry := Function.update s.entry frame fun _ => 0 }

/-- Write one byte at an address of the direct map. -/
def poke (s : PageMem) (k : ℕ) (b : UInt8) : PageMem :=
  let frame := k / PAGE_SIZE * PAGE_SIZE
  let i := k % PAGE_SIZE / 8
  { s with entry := writeCell s.entry frame i (putByte (s.entry frame i) (k % 8) b) }

/-- `memcpy` to an address of the direct map. -/
def pokeBytes (s : PageMem) (k : ℕ) : List UInt8 → PageMem
  | [] => s
  | b :: bs => pokeBytes (poke s k b) (k + 1) bs

/-! ### The segments -/

/-- How many bytes of the page at `j` come from the file. -/
def Phdr.fill (ph : Phdr) (j : ℕ) : ℕ := if j < ph.p_filesz then min (ph.p_filesz - j) PAGE_SIZE else 0

/-- The bytes of the page at `j`, and whether the file has them all. -/
def Phdr.content (f : ImageFile) (ph : Phdr) (j : ℕ) : Bool × List UInt8 :=
  if ph.fill j = 0 then (true, []) else f.readAt ((ph.p_offset + j) % 2 ^ 64) (ph.fill j)

/-- The loop over the pages of a segment, from the page at `j`: whether it went through, the addresses of the pages it
mapped, and the memory after it.  A round takes a frame at least. -/
def loadPages (f : ImageFile) (pml4 : ℕ) (ph : Phdr) : ℕ → ℕ → PageMem → Option (Bool × List ℕ × PageMem)
  | 0, _, _ => none
  | fuel + 1, j, s =>
      if j < ph.p_memsz then
        match s.vmmAlloc pml4 ((ph.p_vaddr + j) % 2 ^ 64) userFlags with
        | none => none
        | some (frame, s) =>
            let s := pokeBytes (clearFrame s frame) frame (ph.content f j).2
            if (ph.content f j).1 = false then some (false, [(ph.p_vaddr + j) % 2 ^ 64], s)
            else
              match loadPages f pml4 ph fuel ((j + PAGE_SIZE) % 2 ^ 64) s with
              | none => none
              | some (ok, pages, s) => some (ok, (ph.p_vaddr + j) % 2 ^ 64 :: pages, s)
      else some (true, [], s)

/-- The loop over the program headers. -/
def loadSegments (f : ImageFile) (pml4 : ℕ) : List Phdr → PageMem → Option (Bool × List ℕ × PageMem)
  | [], s => some (true, [], s)
  | ph :: rest, s =>
      if ph.p_type ≠ PT_LOAD ∨ ph.p_memsz = 0 then loadSegments f pml4 rest s
      else if ph.p_vaddr % PAGE_SIZE ≠ 0 then some (false, [], s)
      else
        match loadPages f pml4 ph (s.pool.length + 1) 0 s with
        | none => none
        | some (false, pages, s) => some (false, pages, s)
        | some (true, pages, s) =>
            match loadSegments f pml4 rest s with
            | none => none
            | some (ok, more, s) => some (ok, pages ++ more, s)

/-! ### The stack -/

/-- `a - b` on 64 bits. -/
def sub64 (a b : ℕ) : ℕ := (a % 2 ^ 64 + 2 ^ 64 - b % 2 ^ 64) % 2 ^ 64

/-- The loop of `ucopy`.  A round copies a byte at least. -/
def ucopyLoop (pml4 : ℕ) : ℕ → ℕ → List UInt8 → PageMem → Option PageMem
  | 0, _, _, s => some s
  | fuel + 1, uva, src, s =>
      if src = [] then some s
      else
        match s.pgtableKva pml4 uva with
        | none => none
        | some k =>
            let chunk := min (PAGE_SIZE - uva % PAGE_SIZE) src.length
            ucopyLoop pml4 fuel ((uva + chunk) % 2 ^ 64) (src.drop chunk) (pokeBytes s k (src.take chunk))

/-- `ucopy`. -/
def ucopy (pml4 uva : ℕ) (src : List UInt8) (s : PageMem) : Option PageMem := ucopyLoop pml4 src.length uva src s

/-- `uput64`. -/
def uput64 (pml4 uva val : ℕ) (s : PageMem) : Option PageMem :=
  ucopy pml4 uva ((List.range 8).map fun k => leByte val k) s

/-- Copy the strings below `sp`, one below the other: where the stack ends and where each string is, the last one
copied first. -/
def pushStrings (pml4 : ℕ) : List (List UInt8) → ℕ → PageMem → Option (ℕ × List ℕ × PageMem)
  | [], sp, s => some (sp, [], s)
  | str :: rest, sp, s =>
      let sp := sub64 sp (str.length + 1)
      match ucopy pml4 sp (str ++ [0]) s with
      | none => none
      | some s =>
          match pushStrings pml4 rest sp s with
          | none => none
          | some (top, argp, s) => some (top, sp :: argp, s)

/-- Push words below `sp`. -/
def pushWords (pml4 : ℕ) : List ℕ → ℕ → PageMem → Option (ℕ × PageMem)
  | [], sp, s => some (sp, s)
  | w :: ws, sp, s =>
      match uput64 pml4 (sub64 sp 8) w s with
      | none => none
      | some s => pushWords pml4 ws (sub64 sp 8) s

/-- `setup_user_stack`: the strings from the last to the first, and the block with their addresses below them. -/
def setupUserStack (pml4 rsp : ℕ) (argv : List (List UInt8)) (s : PageMem) : Option (ℕ × PageMem) :=
  let args := argv.take MAX_ARGS
  match pushStrings pml4 args.reverse rsp s with
  | none => none
  | some (sp, argp, s) =>
      let sp := sp / 16 * 16
      let sp := if args.length % 2 = 1 then sub64 sp 8 else sp
      pushWords pml4 ([0, 0, 0] ++ argp ++ [args.length]) sp s

/-! ### The whole -/

/-- What `load_elf` leaves: its answer, the registers it sets, the addresses of the pages it mapped, the memory. -/
structure Loaded where
  rc : ℤ
  rip : ℕ
  rsp : ℕ
  pages : List ℕ
  mem : PageMem

/-- `load_elf`. -/
def loadElf (f : ImageFile) (pml4 rip rsp : ℕ) (argv : List (List UInt8)) (s : PageMem) : Option Loaded :=
  match programHeaders f with
  | none => some ⟨-1, rip, rsp, [], s⟩
  | some (entry, phdrs) =>
      match loadSegments f pml4 phdrs s with
      | none => none
      | some (false, pages, s) => some ⟨-1, entry, rsp, pages, s⟩
      | some (true, pages, s) =>
          match setupUserStack pml4 rsp argv s with
          | none => none
          | some (sp, s) => some ⟨0, entry, sp, pages, s⟩

/-- The loop of `task_create` over the pages of the stack. -/
def mapStack (pml4 : ℕ) : List ℕ → PageMem → Option PageMem
  | [], s => some s
  | i :: is, s =>
      match s.vmmAlloc pml4 (USER_STACK_BASE + i * PAGE_SIZE) userFlags with
      | none => none
      | some (frame, s) => mapStack pml4 is (clearFrame s frame)

/-- `regs.rsp` of a new user task. -/
def userStackTop : ℕ := USER_STACK_BASE + USER_STACK_PAGES * PAGE_SIZE

/-- The address space of a user task, as `task_create` builds it. -/
def taskSpace (kernelPml4 : ℕ) (s : PageMem) : Option (ℕ × PageMem) :=
  match s.pgtableCreate kernelPml4 with
  | none => none
  | some (pml4, s) => (mapStack pml4 (List.range USER_STACK_PAGES) s).map fun s => (pml4, s)

end LizardOs.Proc
