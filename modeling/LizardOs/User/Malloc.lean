import LizardOs.Lib.Steps
import Mathlib.Logic.Function.Basic
import Mathlib.Tactic.Ring

/-!
# The heap of a user program

`malloc`, `free`, `calloc` and `realloc` of `userspace/lib/stdlib.c`: a list of blocks in address order inside one
static arena, searched first fit.  The headers are kept by address, and the list is followed through their `next`
words, so a loop that leaves the list or does not end is one of the model too; its steps are counted.

`none` stands for a call that does not return: a loop that goes on, or a task killed by a page fault.
-/

namespace LizardOs.User

def HEAP_SIZE : ℕ := 16 * 1024 * 1024

/-- `HDR`: the 24 bytes of a `block_t`, rounded up. -/
def HDR : ℕ := 32

/-- `ALIGN_UP(n, 16)` on 64-bit numbers. -/
def align16 (n : ℕ) : ℕ := (n + 15) % 2 ^ 64 / 16 * 16

/-- The end of the half of the address space that a user program can write to. -/
def USER_END : ℕ := 2 ^ 47

/-- `block_t`; a null `next` is 0. -/
structure BlockT where
  size : ℕ
  next : ℕ
  free : Bool

/-- Where the loader has put `g_heap`. -/
structure Arena where
  base : ℕ
  pos : 0 < base
  fits : base + HEAP_SIZE ≤ USER_END

/-- The block headers by address, and `g_first`. -/
structure MallocHeap where
  mem : ℕ → BlockT
  gFirst : ℕ

/-- More steps than there can be blocks. -/
def WALK : ℕ := HEAP_SIZE / HDR + 1

namespace MallocHeap

/-- Change one header. -/
def setBlock (h : MallocHeap) (b : ℕ) (v : BlockT) : MallocHeap := { h with mem := Function.update h.mem b v }

/-- `heap_init`. -/
def heapInit (ar : Arena) (h : MallocHeap) : MallocHeap :=
  { h with gFirst := ar.base }.setBlock ar.base ⟨HEAP_SIZE - HDR, 0, true⟩

/-- The search of `malloc`: the first free block that is large enough, or 0. -/
def findFit (h : MallocHeap) (want : ℕ) : ℕ → ℕ → Option ℕ
  | 0, _ => none
  | n + 1, b =>
      if b = 0 then some 0
      else if (h.mem b).free = false ∨ (h.mem b).size < want then h.findFit want n (h.mem b).next
      else some b

/-- Cut the rest off a block that is large enough for it. -/
def split (h : MallocHeap) (b want : ℕ) : MallocHeap :=
  if (want + HDR + 16) % 2 ^ 64 ≤ (h.mem b).size then
    let nb := b + HDR + want
    (h.setBlock nb ⟨(h.mem b).size - want - HDR, (h.mem b).next, true⟩).setBlock b ⟨want, nb, (h.mem b).free⟩
  else h

/-- Take a block. -/
def take (h : MallocHeap) (b : ℕ) : MallocHeap := h.setBlock b { h.mem b with free := false }

/-- `malloc`: a pointer, or 0. -/
def malloc (ar : Arena) (h : MallocHeap) (want : ℕ) : Option (ℕ × MallocHeap) :=
  let want := align16 (if want = 0 then 1 else want)
  let h := if h.gFirst = 0 then h.heapInit ar else h
  match h.findFit want WALK h.gFirst with
  | none => none
  | some b => if b = 0 then some (0, h) else some (b + HDR, (h.split b want).take b)

/-- `block_of`. -/
def blockOf (ptr : ℕ) : ℕ := ptr - HDR

/-- Join a block with the following one. -/
def join (h : MallocHeap) (b nx : ℕ) : MallocHeap :=
  h.setBlock b ⟨((h.mem b).size + (HDR + (h.mem nx).size)) % 2 ^ 64, (h.mem nx).next, (h.mem b).free⟩

/-- `while (b->next && b->next->free)`. -/
def coalesceForward (b : ℕ) : ℕ → MallocHeap → Option MallocHeap
  | 0, _ => none
  | n + 1, h =>
      if (h.mem b).next ≠ 0 ∧ (h.mem (h.mem b).next).free = true then
        coalesceForward b n (h.join b (h.mem b).next)
      else some h

/-- `while (p && p->next != b)`: the block in front of `b`, or 0. -/
def findPrev (h : MallocHeap) (b : ℕ) : ℕ → ℕ → Option ℕ
  | 0, _ => none
  | n + 1, p =>
      if p = 0 then some 0
      else if (h.mem p).next = b then some p
      else h.findPrev b n (h.mem p).next

/-- The end of `free`. -/
def coalesceBackward (h : MallocHeap) (b : ℕ) : Option MallocHeap :=
  if b = h.gFirst then some h
  else
    match h.findPrev b WALK h.gFirst with
    | none => none
    | some p => if p ≠ 0 ∧ (h.mem p).free = true then some (h.join p b) else some h

/-- `free`. -/
def free (h : MallocHeap) (ptr : ℕ) : Option MallocHeap :=
  if ptr = 0 then some h
  else
    let b := blockOf ptr
    match coalesceForward b WALK (h.setBlock b { h.mem b with free := true }) with
    | none => none
    | some h => h.coalesceBackward b

/-- `memset` or `memcpy` of `n` bytes to `p`: a header that the range touches becomes what is written there, and a
range that leaves the user half faults. -/
def overwrite (h : MallocHeap) (p n : ℕ) (data : ℕ → BlockT) : Option MallocHeap :=
  if USER_END < p + n then none
  else some { h with mem := fun a => if a < p + n ∧ p < a + HDR then data a else h.mem a }

/-- `calloc`. -/
def calloc (ar : Arena) (h : MallocHeap) (n size : ℕ) : Option (ℕ × MallocHeap) :=
  let total := n * size % 2 ^ 64
  if size ≠ 0 ∧ total / size ≠ n then some (0, h)
  else
    match h.malloc ar total with
    | none => none
    | some (p, h) =>
        if p = 0 then some (0, h)
        else (h.overwrite p total fun _ => ⟨0, 0, false⟩).map fun h => (p, h)

/-- `realloc`; `data` is what the copied bytes would be as a header. -/
def realloc (ar : Arena) (h : MallocHeap) (ptr size : ℕ) (data : ℕ → BlockT) : Option (ℕ × MallocHeap) :=
  if ptr = 0 then h.malloc ar size
  else if size = 0 then (h.free ptr).map fun h => (0, h)
  else if align16 size ≤ (h.mem (blockOf ptr)).size then some (ptr, h)
  else
    match h.malloc ar size with
    | none => none
    | some (np, h) =>
        if np = 0 then some (0, h)
        else
          match h.overwrite np (h.mem (blockOf ptr)).size data with
          | none => none
          | some h => (h.free ptr).map fun h => (np, h)

end MallocHeap

/-! ### Runs -/

/-- The heap, and the pointers the program has not freed. -/
structure MallocRun where
  heap : MallocHeap
  live : List ℕ

inductive MallocCall where
  | malloc (size : ℕ)
  | calloc (n size : ℕ)
  | realloc (ptr size : ℕ) (data : ℕ → BlockT)
  | free (ptr : ℕ)

namespace MallocRun

/-- The live pointers after a call that answered `p`. -/
def answered (live : List ℕ) (p : ℕ) : List ℕ := if p = 0 then live else p :: live

/-- A call; only null and live pointers are passed to it. -/
def exec (ar : Arena) (s : MallocRun) : MallocCall → Option MallocRun
  | .malloc size => (s.heap.malloc ar size).map fun r => ⟨r.2, answered s.live r.1⟩
  | .calloc n size => (s.heap.calloc ar n size).map fun r => ⟨r.2, answered s.live r.1⟩
  | .realloc ptr size data =>
      if ptr = 0 ∨ ptr ∈ s.live then
        (s.heap.realloc ar ptr size data).map fun r =>
          ⟨r.2, if size ≠ 0 ∧ r.1 = 0 then s.live else answered (s.live.erase ptr) r.1⟩
      else none
  | .free ptr =>
      if ptr = 0 ∨ ptr ∈ s.live then (s.heap.free ptr).map fun h => ⟨h, s.live.erase ptr⟩ else none

def Step (ar : Arena) (s : MallocRun) (c : MallocCall) (s' : MallocRun) : Prop := s.exec ar c = some s'

/-- Before the first call. -/
def start (mem : ℕ → BlockT) : MallocRun := ⟨⟨mem, 0⟩, []⟩

end MallocRun

end LizardOs.User
