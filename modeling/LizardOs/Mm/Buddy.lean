import LizardOs.Lib.Blocks
import LizardOs.Lib.Steps
import Mathlib.Logic.Function.Basic
import Mathlib.Data.List.Range

/-!
# The page allocator

`buddy.c`: an array of page descriptors and one free list for each order.  A free list is the list of the first
page frames of its blocks, first entry first; `list_add` puts a block in front, and `buddy_alloc` takes the
front one.  Splitting a block puts its upper halves on the lists below; freeing a block puts it back on its
list as it is, without merging.
-/

namespace LizardOs.Mm

open LizardOs.Lib

def MAX_ORDER : ℕ := 16
def PAGE_SIZE : ℕ := 4096

/-- Where the direct map begins. -/
def BOOT_HHDM_BASE : ℕ := 0xFFFF800000000000

/-- The flags of `struct buddy_page`; exactly one is ever set. -/
inductive PageFlags where
  | free
  | reserved
  | allocated
deriving DecidableEq

structure BuddyPage where
  order : ℕ
  flags : PageFlags

structure BuddyArea where
  freeList : List ℕ
  freeCount : ℤ

/-- `struct buddy_allocator`, with the direct-map offset it turns frames into addresses with. -/
structure Buddy where
  pages : ℕ → BuddyPage
  pageCount : ℕ
  freeAreas : ℕ → BuddyArea
  hhdmOffset : ℕ

namespace Buddy

/-- `buddy_add_block`. -/
def addBlock (b : Buddy) (pfn order : ℕ) : Buddy :=
  { b with
    pages := Function.update b.pages pfn ⟨order, .free⟩
    freeAreas := Function.update b.freeAreas order
      ⟨pfn :: (b.freeAreas order).freeList, (b.freeAreas order).freeCount + 1⟩ }

/-- `list_del` of the first block of an area, and `free_count--`. -/
def takeBlock (b : Buddy) (i : ℕ) : Buddy :=
  { b with
    freeAreas := Function.update b.freeAreas i
      ⟨(b.freeAreas i).freeList.tail, (b.freeAreas i).freeCount - 1⟩ }

/-- `while (i > order)`: put the upper half of a block of order `i` on its list, down to `order`. -/
def splitDown (pfn order : ℕ) : ℕ → Buddy → Buddy
  | 0, b => b
  | i + 1, b => if order < i + 1 then splitDown pfn order i (b.addBlock (pfn + 2 ^ i) i) else b

/-- Set the flags and the order of the pages of an allocated block. -/
def markAllocated (b : Buddy) (pfn order : ℕ) : Buddy :=
  { b with
    pages := fun p =>
      if pfn ≤ p ∧ p < pfn + 2 ^ order then ⟨order, .allocated⟩ else b.pages p }

/-- Set the flags of the pages of a freed block. -/
def markFree (b : Buddy) (pfn order : ℕ) : Buddy :=
  { b with
    pages := fun p =>
      if pfn ≤ p ∧ p < pfn + 2 ^ order then { b.pages p with flags := .free } else b.pages p }

/-- The address of a page frame in the direct map. -/
def vaddr (b : Buddy) (pfn : ℕ) : ℕ := (pfn * PAGE_SIZE + b.hhdmOffset) % 2 ^ 64

/-- The page frame of an address, as `buddy_free` computes it. -/
def pfnOf (b : Buddy) (vaddr : ℕ) : ℕ := ((vaddr + 2 ^ 64 - b.hhdmOffset) % 2 ^ 64) / PAGE_SIZE

/-- The search of `buddy_alloc_vaddr`: the first area of order `i` or more with a block. -/
def firstArea (b : Buddy) (order : ℕ) : Option ℕ :=
  (List.range' order (MAX_ORDER + 1 - order)).find? fun i => !(b.freeAreas i).freeList.isEmpty

/-- `buddy_alloc_vaddr`, and `buddy_alloc`: an address, or 0. -/
def alloc (b : Buddy) (order : ℕ) : ℕ × Buddy :=
  if MAX_ORDER < order then (0, b)
  else
    match b.firstArea order with
    | none => (0, b)
    | some i =>
        let pfn := (b.freeAreas i).freeList.headD 0
        let b := splitDown pfn order i (b.takeBlock i)
        (b.vaddr pfn, b.markAllocated pfn order)

/-- `buddy_free`. -/
def free (b : Buddy) (vaddr order : ℕ) : Buddy :=
  if vaddr = 0 then b
  else if b.pageCount ≤ b.pfnOf vaddr then b
  else (b.markFree (b.pfnOf vaddr) order).addBlock (b.pfnOf vaddr) order

end Buddy

/-! ### Boot -/

/-- `enum bi_mmap_type`, as far as the allocator tells the kinds apart. -/
inductive MmapType where
  | usable
  | other
deriving DecidableEq

structure MmapEntry where
  base : ℕ
  len : ℕ
  type : MmapType

/-- What `buddy_init` reads: the memory map, where the kernel lies, and what the early allocator has handed
out. -/
structure BootInfo where
  mmap : List MmapEntry
  kernelPhysBase : ℕ
  kernelSize : ℕ
  earlyBase : ℕ
  earlyCurrent : ℕ
  hhdmBase : ℕ

/-- `align_up`, with `~(a - 1)` as a mask of 64 bits. -/
def alignUpTo (x a : ℕ) : ℕ := (x + a - 1) % 2 ^ 64 &&& (2 ^ 64 - a)

/-- The mask of `align_up` clears the low bits. -/
theorem and_mask {y k : ℕ} (hk : k ≤ 64) (hy : y < 2 ^ 64) : y &&& (2 ^ 64 - 2 ^ k) = y / 2 ^ k * 2 ^ k := by
  have hpow : 2 ^ k ≤ 2 ^ 64 := Nat.pow_le_pow_right (by decide) hk
  have hpos := Nat.two_pow_pos k
  have hmask : 2 ^ 64 - 2 ^ k = 2 ^ 64 - (2 ^ k - 1 + 1) := by omega
  apply Nat.eq_of_testBit_eq
  intro i
  rw [Nat.testBit_and, hmask, Nat.testBit_two_pow_sub_succ (by omega), Nat.testBit_two_pow_sub_one,
    Nat.testBit_mul_two_pow, Nat.testBit_div_two_pow]
  by_cases hik : k ≤ i
  · rw [Nat.sub_add_cancel hik]
    by_cases hi : i < 64
    · simp [hik, hi]
    · have hbig : y.testBit i = false := Nat.testBit_lt_two_pow (hy.trans_le (Nat.pow_le_pow_right (by decide) (by omega)))
      simp [hbig]
  · simp [hik, Nat.lt_of_not_le hik]

theorem alignUpTo_two_pow {k : ℕ} (hk : k ≤ 64) (x : ℕ) :
    alignUpTo x (2 ^ k) = (x + 2 ^ k - 1) % 2 ^ 64 / 2 ^ k * 2 ^ k := and_mask hk (Nat.mod_lt _ (by decide))

/-- A multiple of the alignment stays. -/
theorem alignUpTo_eq {x k : ℕ} (hk : k ≤ 64) (hx : x % 2 ^ k = 0) (hfits : x + 2 ^ k ≤ 2 ^ 64) :
    alignUpTo x (2 ^ k) = x := by
  have hpos := Nat.two_pow_pos k
  have hsum : x + 2 ^ k - 1 < 2 ^ 64 := by omega
  rw [alignUpTo_two_pow hk, Nat.mod_eq_of_lt hsum]
  obtain ⟨c, rfl⟩ := Nat.dvd_of_mod_eq_zero hx
  have hdiv : (2 ^ k * c + 2 ^ k - 1) / 2 ^ k = c := by
    rw [Nat.add_sub_assoc hpos, Nat.mul_add_div hpos, Nat.div_eq_of_lt (by omega), Nat.add_zero]
  rw [hdiv, Nat.mul_comm]

/-- `align_up(x, PAGE_SIZE)`. -/
def alignUp (x : ℕ) : ℕ := alignUpTo x PAGE_SIZE

theorem alignUp_eq (x : ℕ) : alignUp x = (x + PAGE_SIZE - 1) % 2 ^ 64 / PAGE_SIZE * PAGE_SIZE :=
  alignUpTo_two_pow (k := 12) (by decide) x

/-- `align_down(x, PAGE_SIZE)` of a single word. -/
def alignDown (x : ℕ) : ℕ := x - x % PAGE_SIZE

/-- The end of a memory map entry, as a 64-bit sum. -/
def MmapEntry.stop (e : MmapEntry) : ℕ := (e.base + e.len) % 2 ^ 64

/-- `align_down(e->base + e->len, PAGE_SIZE)`.  The macro is `(num - (num % align))`, without parentheses around
`num`, so that what is subtracted from the sum is `e->base + (e->len % PAGE_SIZE)`. -/
def MmapEntry.freeStop (e : MmapEntry) : ℕ :=
  (e.base + e.len + 2 ^ 64 - (e.base + e.len % PAGE_SIZE) % 2 ^ 64) % 2 ^ 64

namespace BootInfo

/-- `detect_page_count`. -/
def detectPageCount (bi : BootInfo) : ℕ :=
  alignUp (bi.mmap.foldl (fun m e => if e.type = .usable ∧ m < e.stop then e.stop else m) 0) / PAGE_SIZE

/-- The frames of the kernel image and of the early allocator stay reserved. -/
def keeps (bi : BootInfo) (pfn : ℕ) : Prop :=
  (bi.kernelPhysBase / PAGE_SIZE ≤ pfn ∧
    pfn < alignUp ((bi.kernelPhysBase + bi.kernelSize) % 2 ^ 64) / PAGE_SIZE) ∨
  (alignDown bi.earlyBase / PAGE_SIZE ≤ pfn ∧ pfn < alignUp bi.earlyCurrent / PAGE_SIZE)

instance (bi : BootInfo) (pfn : ℕ) : Decidable (bi.keeps pfn) := inferInstanceAs (Decidable (_ ∨ _))

/-- Mark the pages of a memory map entry free. -/
def markUsable (bi : BootInfo) (pages : ℕ → BuddyPage) (e : MmapEntry) : ℕ → BuddyPage :=
  if e.type ≠ .usable then pages
  else if e.freeStop ≤ alignUp e.base then pages
  else fun pfn =>
    if alignUp e.base / PAGE_SIZE ≤ pfn ∧ pfn < e.freeStop / PAGE_SIZE ∧ ¬bi.keeps pfn then
      { pages pfn with flags := .free }
    else pages pfn

/-- The allocator before the free pages are grouped: every page reserved, then the usable ones free. -/
def marked (bi : BootInfo) : Buddy where
  pages := bi.mmap.foldl bi.markUsable fun _ => ⟨0, .reserved⟩
  pageCount := bi.detectPageCount
  freeAreas := fun _ => ⟨[], 0⟩
  hhdmOffset := bi.hhdmBase

end BootInfo

namespace Buddy

/-- A block of order `order` at page `i` is aligned, inside the array and all free. -/
def fits (b : Buddy) (i order : ℕ) : Bool :=
  decide (i % 2 ^ order = 0) && decide (i + 2 ^ order ≤ b.pageCount) &&
    (List.range (2 ^ order)).all fun j => decide ((b.pages (i + j)).flags = .free)

/-- `while (order > 0)`: the largest order that fits, or 0. -/
def groupOrder (b : Buddy) (i : ℕ) : ℕ → ℕ
  | 0 => 0
  | order + 1 => if b.fits i (order + 1) then order + 1 else b.groupOrder i order

/-- The grouping loop of `buddy_init`; it runs at most `page_count` times. -/
def group (b : Buddy) : ℕ → ℕ → Buddy
  | 0, _ => b
  | n + 1, i =>
      if b.pageCount ≤ i then b
      else if (b.pages i).flags ≠ .free then b.group n (i + 1)
      else (b.addBlock i (b.groupOrder i MAX_ORDER)).group n (i + 2 ^ b.groupOrder i MAX_ORDER)

end Buddy

/-- `buddy_init`. -/
def buddyInit (bi : BootInfo) : Buddy := bi.marked.group bi.detectPageCount 0

end LizardOs.Mm
