import LizardOs.Lib.RadixTree
import LizardOs.Mm.Buddy
import Mathlib.Data.Nat.Bitwise

/-!
# Page tables

`pgtable.c`, and `vmm_alloc`.  A table is known by the address of its frame in the direct map, and holds 512 entries
of 64 bits.  The frames that `buddy_alloc(0)` is going to answer are a list; a kernel without a frame for a table
faults at address 0, and `none` stands for that.
-/

namespace LizardOs.Mm

open LizardOs.Lib

def PAGE_PRESENT : ℕ := 1
def PAGE_WRITABLE : ℕ := 2
def PAGE_USER : ℕ := 4
def PAGE_HUGE : ℕ := 128
def KERNEL_PML4_INDEX : ℕ := 256

/-- `hhdm_offset`, as the boot loader sets it. -/
def HHDM_OFFSET : ℕ := 0xFFFF800000000000

/-- `e & PAGE_PRESENT`. -/
def present (e : ℕ) : Bool := decide (e &&& PAGE_PRESENT ≠ 0)

/-- `e & PAGE_HUGE`. -/
def huge (e : ℕ) : Bool := decide (e &&& PAGE_HUGE ≠ 0)

/-- `e & ~0xFFFUL`. -/
def frameOf (e : ℕ) : ℕ := e / PAGE_SIZE * PAGE_SIZE

/-- `(e & ~0xFFFUL) + hhdm_offset`. -/
def tableOf (e : ℕ) : ℕ := (frameOf e + HHDM_OFFSET) % 2 ^ 64

/-- The table an entry leads to. -/
def nextTable (e : ℕ) : Option ℕ := if present e = true then some (tableOf e) else none

/-- `(vaddr >> shift) & 0x1FF`. -/
def tableIndex (vaddr shift : ℕ) : ℕ := vaddr / 2 ^ shift % 512

/-- The entries of all tables, and the frames that are going to be handed out. -/
structure PageMem where
  entry : ℕ → ℕ → ℕ
  pool : List ℕ

namespace PageMem

/-- `pgtable_alloc_table`: a table of zeros. -/
def pgtableAllocTable (s : PageMem) : Option (ℕ × PageMem) :=
  match s.pool with
  | [] => none
  | f :: pool => some (f, ⟨Function.update s.entry f fun _ => 0, pool⟩)

/-- `pgtable_create`: the upper half of the kernel's table is taken over. -/
def pgtableCreate (s : PageMem) (kernelPml4 : ℕ) : Option (ℕ × PageMem) :=
  match s.pgtableAllocTable with
  | none => none
  | some (f, s) =>
      some (f, { s with entry := Function.update s.entry f fun i =>
        if KERNEL_PML4_INDEX ≤ i ∧ i < 512 then s.entry kernelPml4 i else s.entry f i })

/-- One level of `pgtable_map`: follow an entry, or create the table for it. -/
def enter (s : PageMem) (table i flags : ℕ) : Option (ℕ × PageMem) :=
  match nextTable (s.entry table i) with
  | some t => some (t, s)
  | none =>
      match s.pgtableAllocTable with
      | none => none
      | some (f, s) =>
          some (f, { s with entry := writeCell s.entry table i ((f + 2 ^ 64 - HHDM_OFFSET) % 2 ^ 64 ||| flags) })

/-- `pgtable_map`. -/
def pgtableMap (s : PageMem) (pml4 vaddr paddr flags : ℕ) : Option PageMem :=
  let vaddr := vaddr / PAGE_SIZE * PAGE_SIZE
  let paddr := paddr / PAGE_SIZE * PAGE_SIZE
  match s.enter pml4 (tableIndex vaddr 39) flags with
  | none => none
  | some (pdpt, s) =>
      match s.enter pdpt (tableIndex vaddr 30) flags with
      | none => none
      | some (pd, s) =>
          match s.enter pd (tableIndex vaddr 21) flags with
          | none => none
          | some (pt, s) => some { s with entry := writeCell s.entry pt (tableIndex vaddr 12) (paddr ||| flags) }

/-- `pgtable_kva`: an address, or nothing for `NULL`. -/
def pgtableKva (s : PageMem) (pml4 vaddr : ℕ) : Option ℕ :=
  match nextTable (s.entry pml4 (tableIndex vaddr 39)) with
  | none => none
  | some pdpt =>
      match nextTable (s.entry pdpt (tableIndex vaddr 30)) with
      | none => none
      | some pd =>
          match nextTable (s.entry pd (tableIndex vaddr 21)) with
          | none => none
          | some pt =>
              if present (s.entry pt (tableIndex vaddr 12)) = true then
                some ((frameOf (s.entry pt (tableIndex vaddr 12)) + HHDM_OFFSET + vaddr % PAGE_SIZE) % 2 ^ 64)
              else none

/-- `pgtable_is_mapped`. -/
def pgtableIsMapped (s : PageMem) (pml4 vaddr : ℕ) : Bool :=
  let vaddr := vaddr / PAGE_SIZE * PAGE_SIZE
  match nextTable (s.entry pml4 (tableIndex vaddr 39)) with
  | none => false
  | some pdpt =>
      match nextTable (s.entry pdpt (tableIndex vaddr 30)) with
      | none => false
      | some pd =>
          match nextTable (s.entry pd (tableIndex vaddr 21)) with
          | none => false
          | some pt => present (s.entry pt (tableIndex vaddr 12))

/-- `vmm_alloc`: the frame in the direct map. -/
def vmmAlloc (s : PageMem) (pml4 vaddr flags : ℕ) : Option (ℕ × PageMem) :=
  match s.pool with
  | [] => none
  | f :: pool =>
      (pgtableMap { s with pool := pool } pml4 vaddr ((f + 2 ^ 64 - HHDM_OFFSET) % 2 ^ 64) flags).map fun s => (f, s)

end PageMem

/-- `pgtable_free`: the frames given back. -/
def pgtableFree (vaddr : ℕ) : List ℕ := if vaddr = 0 then [] else [vaddr]

/-- The loop of `pgtable_free_level` over the indices that are left: the frames given back, in order, and the tables
after it.  `below` is the call for the level below. -/
def freeLoop (below : ℕ → (ℕ → ℕ → ℕ) → List ℕ × (ℕ → ℕ → ℕ)) (level table : ℕ) :
    List ℕ → (ℕ → ℕ → ℕ) → List ℕ × (ℕ → ℕ → ℕ)
  | [], m => ([], m)
  | i :: is, m =>
      if present (m table i) = false then freeLoop below level table is m
      else
        let child := tableOf (m table i)
        let r :=
          if level = 0 then ([child], m)
          else if huge (m table i) = true then ([], m)
          else ((below child m).1 ++ pgtableFree child, (below child m).2)
        let q := freeLoop below level table is (writeCell r.2 table i 0)
        (r.1 ++ q.1, q.2)

/-- `pgtable_free_level`. -/
def pgtableFreeLevel : ℕ → ℕ → (ℕ → ℕ → ℕ) → List ℕ × (ℕ → ℕ → ℕ)
  | 0, table, m => freeLoop (fun _ m => ([], m)) 0 table (List.range 512) m
  | level + 1, table, m =>
      freeLoop (pgtableFreeLevel level) (level + 1) table
        (List.range (if level + 1 = 3 then KERNEL_PML4_INDEX else 512)) m

/-- `pgtable_free_tree`. -/
def pgtableFreeTree (pml4 : ℕ) (m : ℕ → ℕ → ℕ) : List ℕ × (ℕ → ℕ → ℕ) :=
  if pml4 = 0 then ([], m)
  else ((pgtableFreeLevel 3 pml4 m).1 ++ pgtableFree pml4, (pgtableFreeLevel 3 pml4 m).2)

/-! ### Entries -/

/-- The address of a frame in the direct map. -/
structure IsFrame (f : ℕ) : Prop where
  mapped : HHDM_OFFSET ≤ f
  aligned : f % PAGE_SIZE = 0
  fits : f < 2 ^ 64

theorem present_iff (e : ℕ) : present e = true ↔ e % 2 = 1 := by
  rw [present, decide_eq_true_eq, PAGE_PRESENT, Nat.and_one_is_mod]
  omega

@[simp] theorem nextTable_zero : nextTable 0 = none := by decide

theorem nextTable_of_present {e : ℕ} (h : present e = true) : nextTable e = some (tableOf e) := if_pos h

/-- An address and flags of 12 bits do not mix. -/
theorem entry_eq {a flags : ℕ} (ha : a % PAGE_SIZE = 0) (hflags : flags < PAGE_SIZE) : a ||| flags = a + flags := by
  have hdvd : PAGE_SIZE * (a / PAGE_SIZE) = a := Nat.mul_div_cancel' (Nat.dvd_of_mod_eq_zero ha)
  have hpow : PAGE_SIZE = 2 ^ 12 := by decide
  rw [hpow] at hdvd hflags
  rw [← hdvd, Nat.two_pow_add_eq_or_of_lt hflags]

theorem frameOf_entry {a flags : ℕ} (ha : a % PAGE_SIZE = 0) (hflags : flags < PAGE_SIZE) :
    frameOf (a ||| flags) = a := by
  rw [entry_eq ha hflags, frameOf]
  rw [PAGE_SIZE] at *
  omega

theorem present_entry {a flags : ℕ} (ha : a % PAGE_SIZE = 0) (hflags : flags < PAGE_SIZE)
    (hp : present flags = true) : present (a ||| flags) = true := by
  rw [present_iff] at hp ⊢
  rw [entry_eq ha hflags]
  rw [PAGE_SIZE] at ha
  omega

/-- `PAGE_HUGE` is bit 7. -/
theorem huge_eq (e : ℕ) : huge e = decide (e / 2 ^ 7 % 2 = 1) := by
  have hbit : PAGE_HUGE = 2 ^ 7 := by decide
  rw [huge, hbit, Nat.and_two_pow, Nat.testBit_eq_decide_div_mod_eq]
  by_cases h : e / 2 ^ 7 % 2 = 1
  · rw [decide_eq_true h]
    rfl
  · rw [decide_eq_false h]
    rfl

theorem huge_entry {a flags : ℕ} (ha : a % PAGE_SIZE = 0) (hflags : flags < PAGE_SIZE) :
    huge (a ||| flags) = huge flags := by
  have hbit : (a + flags) / 2 ^ 7 % 2 = flags / 2 ^ 7 % 2 := by
    rw [PAGE_SIZE] at ha
    omega
  rw [huge_eq, huge_eq, entry_eq ha hflags, hbit]

/-- The physical address of a frame is page aligned. -/
theorem IsFrame.paddr {f : ℕ} (hf : IsFrame f) :
    (f + 2 ^ 64 - HHDM_OFFSET) % 2 ^ 64 % PAGE_SIZE = 0 ∧
      (f + 2 ^ 64 - HHDM_OFFSET) % 2 ^ 64 + HHDM_OFFSET = f := by
  have h1 := hf.mapped
  have h2 := hf.aligned
  have h3 := hf.fits
  rw [HHDM_OFFSET] at *
  rw [PAGE_SIZE] at *
  omega

theorem IsFrame.ne_zero {f : ℕ} (hf : IsFrame f) : f ≠ 0 := by
  have h1 := hf.mapped
  rw [HHDM_OFFSET] at h1
  omega

/-- The entry for a frame leads to it. -/
theorem IsFrame.nextTable_entry {f flags : ℕ} (hf : IsFrame f) (hflags : flags < PAGE_SIZE)
    (hp : present flags = true) : nextTable ((f + 2 ^ 64 - HHDM_OFFSET) % 2 ^ 64 ||| flags) = some f := by
  obtain ⟨haligned, hback⟩ := hf.paddr
  rw [nextTable_of_present (present_entry haligned hflags hp), tableOf, frameOf_entry haligned hflags, hback,
    Nat.mod_eq_of_lt hf.fits]

/-- The physical address of a frame is that of a page. -/
theorem IsFrame.paddr_page {f : ℕ} (hf : IsFrame f) :
    (f + 2 ^ 64 - HHDM_OFFSET) % 2 ^ 64 / PAGE_SIZE * PAGE_SIZE = (f + 2 ^ 64 - HHDM_OFFSET) % 2 ^ 64 :=
  Nat.div_mul_cancel (Nat.dvd_of_mod_eq_zero hf.paddr.1)

/-- An entry that `pgtable_map` sets to a frame is present and gives the frame. -/
theorem IsFrame.of_entry {f flags e : ℕ} (hf : IsFrame f) (hflags : flags < PAGE_SIZE) (hp : present flags = true)
    (he : e = (f + 2 ^ 64 - HHDM_OFFSET) % 2 ^ 64 / PAGE_SIZE * PAGE_SIZE ||| flags) :
    present e = true ∧ tableOf e = f := by
  rw [hf.paddr_page] at he
  have hpresent : present e = true := by
    rw [he]
    exact present_entry hf.paddr.1 hflags hp
  have hnext := hf.nextTable_entry hflags hp
  rw [← he, nextTable_of_present hpresent] at hnext
  exact ⟨hpresent, Option.some.inj hnext⟩

end LizardOs.Mm
