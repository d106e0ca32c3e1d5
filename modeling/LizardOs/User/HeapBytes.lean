import LizardOs.Lib.Memmove
import LizardOs.User.Malloc

/-!
# The heap of a user program, byte by byte

The functions of `Malloc` over the bytes of memory: a `block_t` is 24 bytes at its address, and the payload of a block
lies behind its header in the same memory, so a header that is written in the wrong place would show in the data.  A
program stores into its payloads between the calls.
-/

namespace LizardOs.User

open LizardOs.Lib

/-- The memory and `g_first`. -/
structure HeapBytes where
  mem : Buf
  gFirst : ℕ

namespace HeapBytes

/-! ### The fields of a `block_t` -/

def size (h : HeapBytes) (b : ℕ) : ℕ := loadLe h.mem b 8
def next (h : HeapBytes) (b : ℕ) : ℕ := loadLe h.mem (b + 8) 8
def free (h : HeapBytes) (b : ℕ) : ℕ := loadLe h.mem (b + 16) 4

def setSize (h : HeapBytes) (b v : ℕ) : HeapBytes := { h with mem := storeLe h.mem b 8 v }
def setNext (h : HeapBytes) (b v : ℕ) : HeapBytes := { h with mem := storeLe h.mem (b + 8) 8 v }
def setFree (h : HeapBytes) (b v : ℕ) : HeapBytes := { h with mem := storeLe h.mem (b + 16) 4 v }

/-! ### The functions -/

/-- `heap_init`. -/
def heapInit (ar : Arena) (h : HeapBytes) : HeapBytes :=
  let h := { h with gFirst := ar.base }
  ((h.setSize ar.base (HEAP_SIZE - HDR)).setNext ar.base 0).setFree ar.base 1

/-- The search of `malloc`: the first free block that is large enough, or 0. -/
def findFit (h : HeapBytes) (want : ℕ) : ℕ → ℕ → Option ℕ
  | 0, _ => none
  | n + 1, b =>
      if b = 0 then some 0
      else if h.free b = 0 ∨ h.size b < want then h.findFit want n (h.next b)
      else some b

/-- Cut the rest off a block that is large enough for it. -/
def split (h : HeapBytes) (b want : ℕ) : HeapBytes :=
  if (want + HDR + 16) % 2 ^ 64 ≤ h.size b then
    let nb := b + HDR + want
    let h := h.setSize nb (h.size b - want - HDR)
    let h := h.setNext nb (h.next b)
    let h := h.setFree nb 1
    let h := h.setSize b want
    h.setNext b nb
  else h

/-- `malloc`: a pointer, or 0. -/
def malloc (ar : Arena) (h : HeapBytes) (want : ℕ) : Option (ℕ × HeapBytes) :=
  let want := align16 (if want = 0 then 1 else want)
  let h := if h.gFirst = 0 then h.heapInit ar else h
  match h.findFit want WALK h.gFirst with
  | none => none
  | some b => if b = 0 then some (0, h) else some (b + HDR, (h.split b want).setFree b 0)

/-- Join a block with the following one. -/
def join (h : HeapBytes) (b nx : ℕ) : HeapBytes :=
  let h := h.setSize b ((h.size b + (HDR + h.size nx)) % 2 ^ 64)
  h.setNext b (h.next nx)

/-- `while (b->next && b->next->free)`. -/
def coalesceForward (b : ℕ) : ℕ → HeapBytes → Option HeapBytes
  | 0, _ => none
  | n + 1, h =>
      if h.next b ≠ 0 ∧ h.free (h.next b) ≠ 0 then coalesceForward b n (h.join b (h.next b))
      else some h

/-- `while (p && p->next != b)`: the block in front of `b`, or 0. -/
def findPrev (h : HeapBytes) (b : ℕ) : ℕ → ℕ → Option ℕ
  | 0, _ => none
  | n + 1, p =>
      if p = 0 then some 0
      else if h.next p = b then some p
      else h.findPrev b n (h.next p)

/-- The end of `free`. -/
def coalesceBackward (h : HeapBytes) (b : ℕ) : Option HeapBytes :=
  if b = h.gFirst then some h
  else
    match h.findPrev b WALK h.gFirst with
    | none => none
    | some p => if p ≠ 0 ∧ h.free p ≠ 0 then some (h.join p b) else some h

/-- `free`. -/
def release (h : HeapBytes) (ptr : ℕ) : Option HeapBytes :=
  if ptr = 0 then some h
  else
    let b := MallocHeap.blockOf ptr
    match coalesceForward b WALK (h.setFree b 1) with
    | none => none
    | some h => h.coalesceBackward b

/-- The memory as a store of bytes. -/
def bytes : ByteStore Buf := ⟨fun m => m, fun m k v => Function.update m k v, fun _ _ _ => rfl⟩

/-- `memset(p, 0, n)`, which faults behind the end of the user half. -/
def memset (h : HeapBytes) (p n : ℕ) : Option HeapBytes :=
  if USER_END < p + n then none
  else some { h with mem := forLoop n (fun i m => Function.update m (p + i) 0) h.mem }

/-- `memcpy(dst, src, n)`, which faults behind the end of the user half. -/
def memcpy (h : HeapBytes) (dst src n : ℕ) : Option HeapBytes :=
  if USER_END < dst + n ∨ USER_END < src + n then none
  else some { h with mem := bytes.copyUp dst src n h.mem }

/-- `calloc`. -/
def calloc (ar : Arena) (h : HeapBytes) (n size : ℕ) : Option (ℕ × HeapBytes) :=
  let total := n * size % 2 ^ 64
  if size ≠ 0 ∧ total / size ≠ n then some (0, h)
  else
    match h.malloc ar total with
    | none => none
    | some (p, h) => if p = 0 then some (0, h) else (h.memset p total).map fun h => (p, h)

/-- `realloc`. -/
def realloc (ar : Arena) (h : HeapBytes) (ptr size : ℕ) : Option (ℕ × HeapBytes) :=
  if ptr = 0 then h.malloc ar size
  else if size = 0 then (h.release ptr).map fun h => (0, h)
  else
    let b := MallocHeap.blockOf ptr
    if align16 size ≤ h.size b then some (ptr, h)
    else
      match h.malloc ar size with
      | none => none
      | some (np, h) =>
          if np = 0 then some (0, h)
          else
            match h.memcpy np ptr (h.size b) with
            | none => none
            | some h => (h.release ptr).map fun h => (np, h)

end HeapBytes

/-! ### Runs -/

/-- The heap, and the pointers the program has not freed. -/
structure HeapRun where
  heap : HeapBytes
  live : List ℕ

inductive HeapCall where
  | malloc (size : ℕ)
  | calloc (n size : ℕ)
  | realloc (ptr size : ℕ)
  | free (ptr : ℕ)
  /-- `ptr[i] = v` by the program. -/
  | store (ptr i : ℕ) (v : UInt8)

namespace HeapRun

/-- A call; only null and live pointers are passed to it, and a program stores inside its payloads. -/
def exec (ar : Arena) (s : HeapRun) : HeapCall → Option HeapRun
  | .malloc size => (s.heap.malloc ar size).map fun r => ⟨r.2, MallocRun.answered s.live r.1⟩
  | .calloc n size => (s.heap.calloc ar n size).map fun r => ⟨r.2, MallocRun.answered s.live r.1⟩
  | .realloc ptr size =>
      if ptr = 0 ∨ ptr ∈ s.live then
        (s.heap.realloc ar ptr size).map fun r =>
          ⟨r.2, if size ≠ 0 ∧ r.1 = 0 then s.live else MallocRun.answered (s.live.erase ptr) r.1⟩
      else none
  | .free ptr =>
      if ptr = 0 ∨ ptr ∈ s.live then (s.heap.release ptr).map fun h => ⟨h, s.live.erase ptr⟩ else none
  | .store ptr i v =>
      if ptr ∈ s.live ∧ i < s.heap.size (MallocHeap.blockOf ptr) then
        some { s with heap := { s.heap with mem := Function.update s.heap.mem (ptr + i) v } }
      else none

def Step (ar : Arena) (s : HeapRun) (c : HeapCall) (s' : HeapRun) : Prop := s.exec ar c = some s'

/-- Before the first call. -/
def start (mem : Buf) : HeapRun := ⟨⟨mem, 0⟩, []⟩

end HeapRun

end LizardOs.User
