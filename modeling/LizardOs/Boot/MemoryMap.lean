import LizardOs.Boot.Head
import LizardOs.Lib.Bytes
import LizardOs.Mm.BuddyBoot

/-!
# From the firmware's memory map to the page allocator

The loader reads the memory descriptors of the firmware from a buffer, in steps of the size that the firmware gives, and
writes an entry for each into the boot information.  The kernel copies the entries, as far as it has room; the early
allocator takes the largest usable one, and from it the array of `buddy_init`; and `buddy_init` marks pages of the
usable entries.  What is handed out in the end is memory that the firmware has called free.
-/

namespace LizardOs.Boot

open LizardOs.Lib LizardOs.Mm

def EfiLoaderCode : ℕ := 1
def EfiLoaderData : ℕ := 2
def EfiBootServicesCode : ℕ := 3
def EfiBootServicesData : ℕ := 4
def EfiConventionalMemory : ℕ := 7
def EfiUnusableMemory : ℕ := 8
def EfiACPIReclaimMemory : ℕ := 9
def EfiACPIMemoryNVS : ℕ := 10

/-- `sizeof(struct bi_mmap_entry)`. -/
def BI_MMAP_ENTRY_SIZE : ℕ := 24

/-- `bi_mmap_cap`: what fits in seven pages. -/
def bi_mmap_cap : ℕ := 7 * PAGE_SIZE / BI_MMAP_ENTRY_SIZE

/-- The entries that the kernel copies. -/
def BI_MMAP_MAX : ℕ := 256

/-- `enum bi_mmap_type`. -/
inductive BiMmapType where
  | usable
  | reserved
  | acpiReclaim
  | acpiNvs
  | loader
  | bad
deriving DecidableEq

/-- `struct bi_mmap_entry`. -/
structure BiMmapEntry where
  base : ℕ
  len : ℕ
  type : BiMmapType

/-- The fields of `EFI_MEMORY_DESCRIPTOR` that the loader reads. -/
structure EfiMemoryDescriptor where
  type : ℕ
  physicalStart : ℕ
  numberOfPages : ℕ
deriving DecidableEq

/-- The descriptor at an offset of the buffer. -/
def descriptorAt (map : Buf) (off : ℕ) : EfiMemoryDescriptor where
  type := loadLe map off 4
  physicalStart := loadLe map (off + 8) 8
  numberOfPages := loadLe map (off + 24) 8

/-- `xlate_type`. -/
def xlateType (efi : ℕ) : BiMmapType :=
  if efi = EfiConventionalMemory ∨ efi = EfiBootServicesCode ∨ efi = EfiBootServicesData then .usable
  else if efi = EfiLoaderCode ∨ efi = EfiLoaderData then .loader
  else if efi = EfiACPIReclaimMemory then .acpiReclaim
  else if efi = EfiACPIMemoryNVS then .acpiNvs
  else if efi = EfiUnusableMemory then .bad
  else .reserved

/-- The entry that `efi_main` writes for a descriptor; the low 1 MiB is never handed to the kernel. -/
def bootEntry (d : EfiMemoryDescriptor) : BiMmapEntry where
  base := d.physicalStart
  len := d.numberOfPages * PAGE_SIZE % 2 ^ 64
  type := if xlateType d.type = .usable ∧ d.physicalStart < 0x100000 then .reserved else xlateType d.type

/-- The loop of `efi_main` over the buffer, with the room that is left in `bi_mmap`: the entries, and `highest`. -/
def mmapLoop (map : Buf) (mapSize descSize : ℕ) : ℕ → ℕ → List BiMmapEntry → ℕ → List BiMmapEntry × ℕ
  | 0, _, mmap, highest => (mmap, highest)
  | left + 1, off, mmap, highest =>
      if mapSize ≤ off then (mmap, highest)
      else
        let e := bootEntry (descriptorAt map off)
        let stop := (e.base + e.len) % 2 ^ 64
        mmapLoop map mapSize descSize left ((off + descSize) % 2 ^ 64) (mmap ++ [e])
          (if e.type = .usable ∧ highest < stop then stop else highest)

/-- `bi->mmap` and `bi->highest_addr`. -/
def efiMmap (map : Buf) (mapSize descSize : ℕ) : List BiMmapEntry × ℕ := mmapLoop map mapSize descSize bi_mmap_cap 0 [] 0

/-- The entries after `boot_info_relocate`. -/
def bootInfoRelocate (mmap : List BiMmapEntry) : List BiMmapEntry := mmap.take BI_MMAP_MAX

/-- What the kernel's allocators read of an entry: they tell usable memory from the rest. -/
def kernelEntry (e : BiMmapEntry) : MmapEntry :=
  ⟨e.base, e.len, if e.type = .usable then .usable else .other⟩

/-- `early_base`, `early_end`, `early_current` and the kernel's own `highest_addr`. -/
structure EarlyAlloc where
  base : ℕ
  stop : ℕ
  current : ℕ
  highestAddr : ℕ

/-- The loop of `early_alloc_init`: the largest usable entry, and the highest end of one. -/
def largestUsable (mmap : List MmapEntry) : MmapEntry × ℕ :=
  mmap.foldl (fun s e =>
    if e.type = .usable then (if s.1.len < e.len then e else s.1, if s.2 < e.stop then e.stop else s.2) else s)
    (⟨0, 0, .usable⟩, 0)

/-- `early_alloc_init`; `align_down` of a sum rounds as in `buddy_init`.  Without an entry the kernel stops. -/
def earlyAllocInit (mmap : List MmapEntry) : Option EarlyAlloc :=
  if mmap = [] then none
  else some ⟨alignUp (largestUsable mmap).1.base, (largestUsable mmap).1.freeStop, alignUp (largestUsable mmap).1.base,
    (largestUsable mmap).2⟩

/-- `early_alloc`, before the offset of the direct map is added; where the region ends the kernel stops. -/
def earlyAlloc (e : EarlyAlloc) (size align : ℕ) : Option (ℕ × EarlyAlloc) :=
  let align := if align = 0 then 8 else align
  let curr := alignUpTo e.current align
  let next := (curr + size) % 2 ^ 64
  if e.stop < next then none else some (curr, { e with current := next })

/-- `sizeof(struct buddy_page)`. -/
def BUDDY_PAGE_SIZE : ℕ := 24

/-- What `buddy_init` marks pages with: the entries, the kernel image, and the early region after its array is taken
from it. -/
def bootMemory (map : Buf) (mapSize descSize kernelPhysBase kernelSize : ℕ) : Option Mm.BootInfo := do
  let mmap := (bootInfoRelocate (efiMmap map mapSize descSize).1).map kernelEntry
  let early ← earlyAllocInit mmap
  let bi : Mm.BootInfo := ⟨mmap, kernelPhysBase, kernelSize, early.base, early.current, BOOT_HHDM_BASE⟩
  let (_, early) ← earlyAlloc early (bi.detectPageCount * BUDDY_PAGE_SIZE % 2 ^ 64) 0
  return { bi with earlyCurrent := early.current }

/-! ### The buffer of the firmware -/

/-- The descriptors in the buffer. -/
def descriptors (map : Buf) (mapSize descSize : ℕ) : List EfiMemoryDescriptor :=
  (List.range ((mapSize + descSize - 1) / descSize)).map fun i => descriptorAt map (i * descSize)

section

variable {map : Buf} {mapSize descSize : ℕ}

/-- The offset of a descriptor is in the buffer. -/
theorem lt_descriptors_length (hstep : 0 < descSize) (i : ℕ) :
    i < (descriptors map mapSize descSize).length ↔ i * descSize < mapSize := by
  rw [descriptors, List.length_map, List.length_range, ← Nat.succ_le_iff, Nat.le_div_iff_mul_le hstep, Nat.succ_mul]
  omega

/-- **The loop** writes an entry for each descriptor, as far as there is room. -/
theorem mmapLoop_entries (hstep : 0 < descSize) (hbuf : mapSize + descSize ≤ 2 ^ 64) (left i : ℕ)
    (mmap : List BiMmapEntry) (highest : ℕ) :
    (mmapLoop map mapSize descSize left (i * descSize) mmap highest).1 =
      mmap ++ (((descriptors map mapSize descSize).drop i).take left).map bootEntry := by
  induction left generalizing i mmap highest with
  | zero => simp [mmapLoop]
  | succ left ih =>
    rw [mmapLoop]
    have hin : i < (descriptors map mapSize descSize).length ↔ i * descSize < mapSize := lt_descriptors_length hstep i
    by_cases hend : mapSize ≤ i * descSize
    · rw [if_pos hend, List.drop_eq_nil_of_le (by omega)]
      simp
    · have hi : i < (descriptors map mapSize descSize).length := hin.mpr (Nat.lt_of_not_le hend)
      have hoff : (i * descSize + descSize) % 2 ^ 64 = (i + 1) * descSize := by
        rw [Nat.succ_mul]
        omega
      have hd : (descriptors map mapSize descSize)[i] = descriptorAt map (i * descSize) := by
        simp [descriptors]
      rw [if_neg hend]
      simp only [hoff]
      rw [ih, List.drop_eq_getElem_cons hi, List.take_succ_cons, List.map_cons, hd, List.append_assoc]
      rfl

/-- No usable entry ends behind `highest`. -/
theorem mmapLoop_highest (left off : ℕ) (mmap : List BiMmapEntry) (highest : ℕ)
    (h : ∀ e ∈ mmap, e.type = .usable → (e.base + e.len) % 2 ^ 64 ≤ highest) :
    ∀ e ∈ (mmapLoop map mapSize descSize left off mmap highest).1, e.type = .usable →
      (e.base + e.len) % 2 ^ 64 ≤ (mmapLoop map mapSize descSize left off mmap highest).2 := by
  induction left generalizing off mmap highest with
  | zero => exact h
  | succ left ih =>
    rw [mmapLoop]
    split
    · exact h
    · apply ih
      intro e he htype
      obtain hold | hnew := List.mem_append.mp he
      · have hle := h e hold htype
        split
        · omega
        · exact hle
      · obtain rfl := List.mem_singleton.mp hnew
        split
        · exact le_refl _
        · rename_i hnot
          exact Nat.le_of_not_lt fun hlt => hnot ⟨htype, hlt⟩

/-- The entries that reach the kernel are those of the first descriptors. -/
theorem relocated_eq (hstep : 0 < descSize) (hbuf : mapSize + descSize ≤ 2 ^ 64) :
    bootInfoRelocate (efiMmap map mapSize descSize).1 =
      ((descriptors map mapSize descSize).take BI_MMAP_MAX).map bootEntry := by
  have hloop : (mmapLoop map mapSize descSize bi_mmap_cap (0 * descSize) [] 0).1 =
    [] ++ (((descriptors map mapSize descSize).drop 0).take bi_mmap_cap).map bootEntry :=
    mmapLoop_entries hstep hbuf bi_mmap_cap 0 [] 0
  rw [Nat.zero_mul, List.drop_zero, List.nil_append] at hloop
  have hcap : min BI_MMAP_MAX bi_mmap_cap = BI_MMAP_MAX := by decide
  rw [bootInfoRelocate, efiMmap, hloop, ← List.map_take, List.take_take, hcap]

end

/-! ### The early allocator -/

/-- The largest usable entry is one of the entries, unless all are empty. -/
theorem largestUsable_mem (mmap : List MmapEntry) :
    ((largestUsable mmap).1 ∈ mmap ∧ (largestUsable mmap).1.type = .usable) ∨
      (largestUsable mmap).1 = ⟨0, 0, .usable⟩ := by
  have hall : ∀ (l : List MmapEntry) (s : MmapEntry × ℕ),
      (s.1 ∈ mmap ∧ s.1.type = .usable) ∨ s.1 = ⟨0, 0, .usable⟩ →
      (∀ e ∈ l, e ∈ mmap) →
      let r := l.foldl (fun s e =>
        if e.type = .usable then (if s.1.len < e.len then e else s.1, if s.2 < e.stop then e.stop else s.2) else s) s
      (r.1 ∈ mmap ∧ r.1.type = .usable) ∨ r.1 = ⟨0, 0, .usable⟩ := by
    intro l
    induction l with
    | nil => exact fun s hs _ => hs
    | cons e l ih =>
      intro s hs hl
      rw [List.foldl_cons]
      apply ih _ _ fun e' he' => hl e' (List.mem_cons_of_mem e he')
      by_cases htype : e.type = .usable
      · rw [if_pos htype]
        by_cases hmore : s.1.len < e.len
        · rw [if_pos hmore]
          exact .inl ⟨hl e List.mem_cons_self, htype⟩
        · rw [if_neg hmore]
          exact hs
      · rw [if_neg htype]
        exact hs
  exact hall mmap _ (.inr rfl) fun _ he => he

/-- What is handed out at a multiple of 8: the bytes from there on, if the region has them. -/
theorem earlyAlloc_eq {x stop highest size curr : ℕ} {e : EarlyAlloc} (hx : x % 8 = 0) (hfits : x + size < 2 ^ 64)
    (hx8 : x + 8 ≤ 2 ^ 64) (h : earlyAlloc ⟨x, stop, x, highest⟩ size 0 = some (curr, e)) :
    curr = x ∧ e.base = x ∧ e.current = x + size ∧ x + size ≤ stop := by
  have hcurr : alignUpTo x 8 = x := alignUpTo_eq (k := 3) (by decide) hx hx8
  rw [earlyAlloc, if_pos rfl] at h
  simp only [hcurr, Nat.mod_eq_of_lt hfits] at h
  split at h
  · cases h
  · obtain ⟨rfl, rfl⟩ := Prod.mk.inj (Option.some.inj h)
    exact ⟨rfl, rfl, rfl, by omega⟩

/-- The pages that are counted end where usable memory may end. -/
theorem detectPageCount_le {bi : Mm.BootInfo} {m : ℕ} (hm : m % PAGE_SIZE = 0) (hfits : m + PAGE_SIZE ≤ 2 ^ 64)
    (hlow : ∀ e ∈ bi.mmap, e.type = .usable → e.stop ≤ m) : bi.detectPageCount * PAGE_SIZE ≤ m := by
  have hall : ∀ (l : List MmapEntry) (a : ℕ), a ≤ m → (∀ e ∈ l, e.type = .usable → e.stop ≤ m) →
      l.foldl (fun m e => if e.type = .usable ∧ m < e.stop then e.stop else m) a ≤ m := by
    intro l
    induction l with
    | nil => exact fun a ha _ => ha
    | cons e l ih =>
      intro a ha hl
      rw [List.foldl_cons]
      apply ih _ _ fun e' he' => hl e' (List.mem_cons_of_mem e he')
      split
      · rename_i hmore
        exact hl e List.mem_cons_self hmore.1
      · exact ha
  have htop := hall bi.mmap 0 (Nat.zero_le m) hlow
  rw [BootInfo.detectPageCount, alignUp_eq]
  rw [PAGE_SIZE] at hm hfits ⊢
  omega

/-! ### What the kernel may use -/

namespace EfiMemoryDescriptor

def bytes (d : EfiMemoryDescriptor) : ℕ := d.numberOfPages * PAGE_SIZE

/-- Memory that the firmware has no use for, outside the low 1 MiB. -/
def Free (d : EfiMemoryDescriptor) : Prop := xlateType d.type = .usable ∧ 0x100000 ≤ d.physicalStart

/-- The page is one of the descriptor. -/
def HasPage (d : EfiMemoryDescriptor) (p : ℕ) : Prop :=
  d.physicalStart ≤ p * PAGE_SIZE ∧ (p + 1) * PAGE_SIZE ≤ d.physicalStart + d.bytes

/-- One ends before the other begins. -/
def Apart (d d' : EfiMemoryDescriptor) : Prop :=
  d.physicalStart + d.bytes ≤ d'.physicalStart ∨ d'.physicalStart + d'.bytes ≤ d.physicalStart

end EfiMemoryDescriptor

/-- The memory map as the firmware gives it: whole pages, apart from each other, and the free memory where the direct map
of the kernel can hold it. -/
structure FirmwareMap (map : Buf) (mapSize descSize : ℕ) : Prop where
  step : 0 < descSize
  buffer : mapSize + descSize ≤ 2 ^ 64
  pages : ∀ d ∈ descriptors map mapSize descSize, d.physicalStart % PAGE_SIZE = 0
  fits : ∀ d ∈ descriptors map mapSize descSize, d.physicalStart + d.bytes + PAGE_SIZE ≤ 2 ^ 64
  low : ∀ d ∈ descriptors map mapSize descSize, d.Free → d.physicalStart + d.bytes ≤ 2 ^ 47
  apart : (descriptors map mapSize descSize).Pairwise EfiMemoryDescriptor.Apart

section

variable {map : Buf} {mapSize descSize kernelPhysBase kernelSize p : ℕ} {bi : Mm.BootInfo}

/-- The descriptors that reach the kernel. -/
def known (map : Buf) (mapSize descSize : ℕ) : List EfiMemoryDescriptor :=
  (descriptors map mapSize descSize).take BI_MMAP_MAX

theorem kernelEntry_usable (d : EfiMemoryDescriptor) : (kernelEntry (bootEntry d)).type = .usable ↔ d.Free := by
  rw [kernelEntry, bootEntry, EfiMemoryDescriptor.Free]
  by_cases hlow : xlateType d.type = .usable ∧ d.physicalStart < 0x100000
  · simp only [if_pos hlow, reduceCtorEq, if_false, false_iff]
    omega
  · simp only [if_neg hlow]
    by_cases htype : xlateType d.type = .usable
    · simp only [htype, if_true, true_and, true_iff]
      exact Nat.le_of_not_lt fun hlt => hlow ⟨htype, hlt⟩
    · simp [htype]

namespace FirmwareMap

/-- The usable entries of the kernel are the free descriptors that it knows. -/
theorem entries (hf : FirmwareMap map mapSize descSize) {e : MmapEntry} :
    (e ∈ (bootInfoRelocate (efiMmap map mapSize descSize).1).map kernelEntry ∧ e.type = .usable) ↔
      ∃ d ∈ known map mapSize descSize, d.Free ∧ e = ⟨d.physicalStart, d.bytes, .usable⟩ := by
  rw [relocated_eq hf.step hf.buffer, List.map_map, List.mem_map]
  have hentry : ∀ d ∈ known map mapSize descSize, d.Free →
      kernelEntry (bootEntry d) = ⟨d.physicalStart, d.bytes, .usable⟩ := by
    intro d hd hfree
    have hbytes := hf.fits d (List.mem_of_mem_take hd)
    have htype := (kernelEntry_usable d).mpr hfree
    have hlen : d.numberOfPages * PAGE_SIZE % 2 ^ 64 = d.bytes := by
      apply Nat.mod_eq_of_lt
      rw [EfiMemoryDescriptor.bytes] at hbytes
      rw [PAGE_SIZE] at hbytes ⊢
      omega
    rw [← htype, ← hlen]
    rfl
  constructor
  · rintro ⟨⟨d, hd, rfl⟩, htype⟩
    have hfree := (kernelEntry_usable d).mp htype
    exact ⟨d, hd, hfree, hentry d hd hfree⟩
  · rintro ⟨d, hd, hfree, rfl⟩
    exact ⟨⟨d, hd, hentry d hd hfree⟩, rfl⟩

/-- A free descriptor ends in the direct map, and so does its entry. -/
theorem stop (hf : FirmwareMap map mapSize descSize) {d : EfiMemoryDescriptor} (hd : d ∈ known map mapSize descSize)
    (hfree : d.Free) : (⟨d.physicalStart, d.bytes, .usable⟩ : MmapEntry).stop = d.physicalStart + d.bytes ∧
      d.physicalStart + d.bytes ≤ 2 ^ 47 := by
  have hlow := hf.low d (List.mem_of_mem_take hd) hfree
  refine ⟨?_, hlow⟩
  show (d.physicalStart + d.bytes) % 2 ^ 64 = _
  omega

/-- `highest_addr` is no lower than the end of a free descriptor. -/
theorem le_highest (hf : FirmwareMap map mapSize descSize) {d : EfiMemoryDescriptor}
    (hd : d ∈ known map mapSize descSize) (hfree : d.Free) :
    d.physicalStart + d.bytes ≤ (efiMmap map mapSize descSize).2 := by
  have hmem : bootEntry d ∈ (efiMmap map mapSize descSize).1 := by
    apply List.mem_of_mem_take (i := BI_MMAP_MAX)
    show bootEntry d ∈ bootInfoRelocate (efiMmap map mapSize descSize).1
    rw [relocated_eq hf.step hf.buffer]
    exact List.mem_map_of_mem hd
  have htype : (bootEntry d).type = .usable := by
    have hkernel := (kernelEntry_usable d).mpr hfree
    by_contra hnot
    rw [kernelEntry, if_neg hnot] at hkernel
    cases hkernel
  have hfits := hf.fits d (List.mem_of_mem_take hd)
  have hstop : ((bootEntry d).base + (bootEntry d).len) % 2 ^ 64 = d.physicalStart + d.bytes := by
    show (d.physicalStart + d.numberOfPages * PAGE_SIZE % 2 ^ 64) % 2 ^ 64 = _
    rw [EfiMemoryDescriptor.bytes, PAGE_SIZE] at *
    omega
  rw [← hstop]
  exact mmapLoop_highest bi_mmap_cap 0 [] 0 (fun e he => absurd he List.not_mem_nil) _ hmem htype

/-- A page of a free descriptor meets no other. -/
theorem page_outside (hf : FirmwareMap map mapSize descSize) {d d' : EfiMemoryDescriptor}
    (hd : d ∈ descriptors map mapSize descSize) (hd' : d' ∈ descriptors map mapSize descSize) (hne : d ≠ d')
    (hp : d.HasPage p) : PageOutside p d'.physicalStart (d'.physicalStart + d'.bytes) := by
  have hsymm : Std.Symm EfiMemoryDescriptor.Apart := ⟨fun _ _ h => h.symm⟩
  have happ := hf.apart.forall hd hd' hne
  have hpage := hf.pages d' hd'
  rw [EfiMemoryDescriptor.HasPage] at hp
  rw [EfiMemoryDescriptor.Apart] at happ
  rw [PageOutside]
  omega

end FirmwareMap

/-- What `bootMemory` takes from the early allocator, if that does not stop: the array of the page allocator. -/
theorem bootMemory_spec (hf : FirmwareMap map mapSize descSize)
    (h : bootMemory map mapSize descSize kernelPhysBase kernelSize = some bi) :
    bi.mmap = (bootInfoRelocate (efiMmap map mapSize descSize).1).map kernelEntry ∧
      bi.kernelPhysBase = kernelPhysBase ∧ bi.kernelSize = kernelSize ∧ bi.hhdmBase = BOOT_HHDM_BASE ∧
      bi.detectPageCount * PAGE_SIZE ≤ 2 ^ 47 ∧
      bi.earlyCurrent = bi.earlyBase + bi.detectPageCount * BUDDY_PAGE_SIZE ∧ bi.earlyCurrent ≤ 2 ^ 47 ∧
      (bi.detectPageCount = 0 ∨ ∃ d ∈ known map mapSize descSize, d.Free ∧ d.physicalStart ≤ bi.earlyBase ∧
        bi.earlyCurrent ≤ d.physicalStart + d.bytes) := by
  rw [bootMemory] at h
  obtain ⟨early, hearly, h⟩ := Option.bind_eq_some_iff.mp h
  obtain ⟨⟨curr, early'⟩, halloc, h⟩ := Option.bind_eq_some_iff.mp h
  obtain rfl := Option.some.inj h
  rw [earlyAllocInit] at hearly
  split at hearly
  · cases hearly
  obtain rfl := Option.some.inj hearly
  set mmap := (bootInfoRelocate (efiMmap map mapSize descSize).1).map kernelEntry with hmmap
  set e := (largestUsable mmap).1 with he
  set count := Mm.BootInfo.detectPageCount ⟨mmap, kernelPhysBase, kernelSize, alignUp e.base, alignUp e.base,
    BOOT_HHDM_BASE⟩ with hcount
  have hsmall : count * PAGE_SIZE ≤ 2 ^ 47 := by
    apply detectPageCount_le (by decide) (by decide)
    intro e' he' htype
    obtain ⟨d, hd, hfree, rfl⟩ := hf.entries.mp ⟨he', htype⟩
    obtain ⟨hstop, hlow⟩ := hf.stop hd hfree
    rw [hstop]
    exact hlow
  have hsize : count * BUDDY_PAGE_SIZE % 2 ^ 64 = count * BUDDY_PAGE_SIZE ∧ count * BUDDY_PAGE_SIZE < 2 ^ 42 := by
    rw [BUDDY_PAGE_SIZE]
    rw [PAGE_SIZE] at hsmall
    omega
  rw [hsize.1] at halloc
  refine ⟨rfl, rfl, rfl, rfl, hsmall, ?_⟩
  show early'.current = alignUp e.base + count * BUDDY_PAGE_SIZE ∧ early'.current ≤ 2 ^ 47 ∧
    (count = 0 ∨ ∃ d ∈ known map mapSize descSize, d.Free ∧ d.physicalStart ≤ alignUp e.base ∧
      early'.current ≤ d.physicalStart + d.bytes)
  obtain ⟨hmem, htype⟩ | hnone := largestUsable_mem mmap
  · obtain ⟨d, hd, hfree, hentry⟩ := hf.entries.mp ⟨hmem, htype⟩
    have hpage := hf.pages d (List.mem_of_mem_take hd)
    obtain ⟨-, hlow⟩ := hf.stop hd hfree
    have hbase : alignUp e.base = d.physicalStart := by
      rw [he, hentry]
      show alignUp d.physicalStart = d.physicalStart
      rw [alignUp_eq]
      rw [PAGE_SIZE] at hpage ⊢
      omega
    have hend : e.freeStop = alignDown d.bytes := by
      rw [he, hentry]
      apply Mm.BootInfo.freeStop_eq
      show d.physicalStart + d.bytes < 2 ^ 64
      omega
    rw [hbase] at halloc ⊢
    rw [hend] at halloc
    have h8 : d.physicalStart % 8 = 0 := by
      rw [PAGE_SIZE] at hpage
      omega
    obtain ⟨-, -, hcurrent, hle⟩ := earlyAlloc_eq h8 (by omega) (by omega) halloc
    have hdown : alignDown d.bytes ≤ d.bytes := Nat.sub_le _ _
    rw [hcurrent]
    exact ⟨rfl, by omega, .inr ⟨d, hd, hfree, le_refl _, by omega⟩⟩
  · have hzero : alignUp e.base = 0 ∧ e.freeStop = 0 := by
      rw [he, hnone]
      decide
    rw [hzero.1, hzero.2] at halloc
    obtain ⟨-, -, hcurrent, hle⟩ := earlyAlloc_eq rfl (by omega) (by omega) halloc
    have hcount0 : count = 0 := by
      rw [BUDDY_PAGE_SIZE] at hle
      omega
    rw [hcurrent, hzero.1]
    exact ⟨rfl, by omega, .inl hcount0⟩

/-- **Memory from the firmware to the page allocator.**  After boot the free pages are those of the free descriptors that
the kernel knows, up to the length of each, outside the kernel image and the array of the allocator, which lies in such
a descriptor itself; they end at or below `highest_addr`; and in every run no page that is handed out meets memory that
the firmware or the loader keeps. -/
theorem memory_of_firmware (hf : FirmwareMap map mapSize descSize)
    (hkernel : kernelPhysBase + kernelSize + PAGE_SIZE ≤ 2 ^ 64)
    (h : bootMemory map mapSize descSize kernelPhysBase kernelSize = some bi) :
    ∃ b : Mm.Boot, b.toBootInfo = bi ∧
      (∀ p, b.FreeAtBoot p ↔
        (∃ d ∈ known map mapSize descSize, d.Free ∧ d.HasPage p ∧ (p + 1) * PAGE_SIZE ≤ d.bytes) ∧
          PageOutside p kernelPhysBase (kernelPhysBase + kernelSize) ∧
          PageOutside p bi.earlyBase (bi.earlyBase + bi.detectPageCount * BUDDY_PAGE_SIZE)) ∧
      (bi.detectPageCount = 0 ∨ ∃ d ∈ known map mapSize descSize, d.Free ∧ d.physicalStart ≤ bi.earlyBase ∧
        bi.earlyBase + bi.detectPageCount * BUDDY_PAGE_SIZE ≤ d.physicalStart + d.bytes) ∧
      (∀ p, b.FreeAtBoot p → (p + 1) * PAGE_SIZE ≤ (efiMmap map mapSize descSize).2) ∧
      ∀ s, Reaches BuddyRun.Step (BuddyRun.boot b) s → ∀ blk ∈ s.outBlocks, ∀ p, blk.Has p →
        ∀ d ∈ descriptors map mapSize descSize, ¬d.Free → PageOutside p d.physicalStart (d.physicalStart + d.bytes) := by
  obtain ⟨hmmap, hphys, hsize, hhhdm, hcount, hcurrent, hlow, harray⟩ := bootMemory_spec hf h
  have hfits : bi.hhdmBase + bi.detectPageCount * PAGE_SIZE ≤ 2 ^ 64 := by
    rw [hhhdm, BOOT_HHDM_BASE]
    omega
  have hpos : 0 < bi.hhdmBase := by
    rw [hhhdm]
    decide
  have ha : bi.Addressable := by
    refine ⟨fun e he htype => ?_, ?_, ?_⟩
    · rw [hmmap] at he
      obtain ⟨d, hd, hfree, rfl⟩ := hf.entries.mp ⟨he, htype⟩
      exact hf.fits d (List.mem_of_mem_take hd)
    · rw [hphys, hsize]
      exact hkernel
    · rw [PAGE_SIZE]
      omega
  have hentries : ∀ p, (∃ e ∈ bi.mmap, e.type = .usable ∧ e.HasPage p ∧ (p + 1) * PAGE_SIZE ≤ e.len) ↔
      ∃ d ∈ known map mapSize descSize, d.Free ∧ d.HasPage p ∧ (p + 1) * PAGE_SIZE ≤ d.bytes := by
    intro p
    rw [hmmap]
    constructor
    · rintro ⟨e, he, htype, hpage, hlen⟩
      obtain ⟨d, hd, hfree, rfl⟩ := hf.entries.mp ⟨he, htype⟩
      exact ⟨d, hd, hfree, hpage, hlen⟩
    · rintro ⟨d, hd, hfree, hpage, hlen⟩
      obtain ⟨he, htype⟩ := hf.entries.mpr ⟨d, hd, hfree, rfl⟩
      exact ⟨_, he, htype, hpage, hlen⟩
  have hfree : ∀ p, (⟨bi, hpos, hfits⟩ : Mm.Boot).FreeAtBoot p ↔
      (∃ d ∈ known map mapSize descSize, d.Free ∧ d.HasPage p ∧ (p + 1) * PAGE_SIZE ≤ d.bytes) ∧
        PageOutside p kernelPhysBase (kernelPhysBase + kernelSize) ∧
        PageOutside p bi.earlyBase (bi.earlyBase + bi.detectPageCount * BUDDY_PAGE_SIZE) := by
    intro p
    have hunreserved : bi.Unreserved p ↔ PageOutside p kernelPhysBase (kernelPhysBase + kernelSize) ∧
        PageOutside p bi.earlyBase (bi.earlyBase + bi.detectPageCount * BUDDY_PAGE_SIZE) := by
      rw [BootInfo.Unreserved, hphys, hsize, hcurrent]
    have hlists := (buddyInit_inv ⟨bi, hpos, hfits⟩).tiles.cover p
    rw [List.append_nil] at hlists
    rw [← hunreserved, ← hentries p, ← BootInfo.marked_iff ha, hlists]
    exact ((buddyInit_partitions_marked bi).tiles.cover p).symm
  refine ⟨⟨bi, hpos, hfits⟩, rfl, hfree, ?_, fun p hp => ?_, fun s hs blk hblk p hp d hd hnot => ?_⟩
  · rw [← hcurrent]
    exact harray
  · obtain ⟨⟨d, hd, hdfree, hpage, -⟩, -⟩ := (hfree p).mp hp
    exact hpage.2.trans (hf.le_highest hd hdfree)
  · have hinv : s.Inv ⟨bi, hpos, hfits⟩ := by
      apply hs.invariant
      · exact ⟨buddyInit_inv _, buddyInit_mapped _, by simp [BuddyRun.boot]⟩
      · exact fun s c s' hi hstep => hi.step hstep
    have hboot : (⟨bi, hpos, hfits⟩ : Mm.Boot).FreeAtBoot p :=
      (hinv.blocks.tiles.cover p).mpr ⟨blk, List.mem_append_right _ hblk, hp⟩
    obtain ⟨⟨d', hd', hfree', hpage, -⟩, -⟩ := (hfree p).mp hboot
    have hne : d' ≠ d := by
      rintro rfl
      exact hnot hfree'
    exact hf.page_outside (List.mem_of_mem_take hd') hd hne hpage

end

/-- Two descriptors of 48 bytes: 2 MiB of free memory at 1 MiB, and the kernel in loader data at 4 MiB. -/
def twoDescriptors : Buf :=
  let free := storeLe (storeLe (storeLe (fun _ => 0) 0 4 EfiConventionalMemory) 8 8 0x100000) 24 8 0x200
  storeLe (storeLe (storeLe free 48 4 EfiLoaderData) 56 8 0x400000) 72 8 4

theorem twoDescriptors_eq : descriptors twoDescriptors 96 48 = [⟨7, 0x100000, 0x200⟩, ⟨2, 0x400000, 4⟩] := by decide

theorem twoDescriptors_map : FirmwareMap twoDescriptors 96 48 where
  step := by decide
  buffer := by decide
  pages := by
    rw [twoDescriptors_eq]
    decide
  fits := by
    rw [twoDescriptors_eq]
    decide
  low := by
    rw [twoDescriptors_eq]
    have hall : ∀ d ∈ [(⟨7, 0x100000, 0x200⟩ : EfiMemoryDescriptor), ⟨2, 0x400000, 4⟩],
        d.physicalStart + d.bytes ≤ 2 ^ 47 := by decide
    exact fun d hd _ => hall d hd
  apart := by
    rw [twoDescriptors_eq, List.pairwise_pair]
    exact .inl (by decide)

set_option maxRecDepth 4000 in
theorem bootMemory_twoDescriptors :
    (bootMemory twoDescriptors 96 48 0x400000 0x4000).map (fun bi => (bi.earlyBase, bi.detectPageCount)) =
      some (0x100000, 768) := by decide

/-- The array of 768 pages ends in page 260, and page 261 is the first free one. -/
theorem memory_of_firmware_twoDescriptors : ∃ b : Mm.Boot,
    bootMemory twoDescriptors 96 48 0x400000 0x4000 = some b.toBootInfo ∧ b.FreeAtBoot 261 ∧ ¬b.FreeAtBoot 260 := by
  obtain ⟨bi, hbi, hnumbers⟩ := Option.map_eq_some_iff.mp bootMemory_twoDescriptors
  obtain ⟨hbase, hcount⟩ := Prod.mk.inj hnumbers
  have hknown : known twoDescriptors 96 48 = [⟨7, 0x100000, 0x200⟩, ⟨2, 0x400000, 4⟩] := by
    rw [known, twoDescriptors_eq]
    rfl
  obtain ⟨b, rfl, hfree, -⟩ := memory_of_firmware twoDescriptors_map (by decide) hbi
  refine ⟨b, hbi, (hfree 261).mpr ?_, fun h => ?_⟩
  · rw [hknown, hbase, hcount]
    exact ⟨⟨_, List.mem_cons_self, ⟨by decide, by decide⟩, ⟨by decide, by decide⟩, by decide⟩, .inl (by decide),
      .inr (by decide)⟩
  · obtain ⟨-, -, harray⟩ := (hfree 260).mp h
    rw [hbase, hcount, PageOutside] at harray
    revert harray
    decide

end LizardOs.Boot
