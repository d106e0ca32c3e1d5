import LizardOs.Boot.Head
import LizardOs.Lib.Memmove

/-!
# How the loader places the kernel

`load_kernel` of the UEFI loader, over physical memory by the byte.  The file lies in memory at `elf`, and is read there
in both passes over the program headers; `AllocatePages` of the firmware is a parameter.  Next to each byte the memory
records whether it has been written.  Pointers have 64 bits.

The image is in its pages, and holds what the segments say, just when the segments are not so far apart that the size
of the image, rounded up and with the room for its alignment, is more than 64 bits hold.
-/

namespace LizardOs.Boot

open LizardOs.Lib LizardOs.Mm

def EFI_PAGE_SIZE : ℕ := 4096
def PT_LOAD : ℕ := 1

/-- Physical memory, and which of its bytes have been written. -/
structure Phys where
  byte : Buf
  written : ℕ → Bool

namespace Phys

/-- `*p = b;` -/
def put (m : Phys) (p : ℕ) (b : UInt8) : Phys :=
  ⟨Function.update m.byte (p % 2 ^ 64) b, Function.update m.written (p % 2 ^ 64) true⟩

/-- The bytes behind the pointer `elf`. -/
def file (m : Phys) (elf : ℕ) : Buf := fun k => m.byte ((elf + k) % 2 ^ 64)

end Phys

/-- `mem_set`. -/
def memSet (d : ℕ) (c : UInt8) (n : ℕ) (m : Phys) : Phys := forLoop n (fun i m => m.put (d + i) c) m

/-- `mem_cpy`. -/
def memCpy (d s n : ℕ) (m : Phys) : Phys := forLoop n (fun i m => m.put (d + i) (m.file s i)) m

/-! ### The file -/

/-- The fields of `Elf64_Phdr` that the loader reads. -/
structure Elf64Phdr where
  p_type : ℕ
  p_offset : ℕ
  p_vaddr : ℕ
  p_filesz : ℕ
  p_memsz : ℕ

def e_entry (f : Buf) : ℕ := loadLe f 24 8
def e_phoff (f : Buf) : ℕ := loadLe f 32 8
def e_phentsize (f : Buf) : ℕ := loadLe f 54 2
def e_phnum (f : Buf) : ℕ := loadLe f 56 2

/-- Where the program header `i` is in the file. -/
def phdrOffset (f : Buf) (i : ℕ) : ℕ := e_phoff f + i * e_phentsize f

/-- The program header `i`. -/
def phdr (f : Buf) (i : ℕ) : Elf64Phdr where
  p_type := loadLe f (phdrOffset f i) 4
  p_offset := loadLe f (phdrOffset f i + 8) 8
  p_vaddr := loadLe f (phdrOffset f i + 16) 8
  p_filesz := loadLe f (phdrOffset f i + 32) 8
  p_memsz := loadLe f (phdrOffset f i + 40) 8

/-! ### The loader -/

/-- One round of the first pass: the least address of a segment, and the end of the last one. -/
def extentStep (f : Buf) (i : ℕ) (s : ℕ × ℕ) : ℕ × ℕ :=
  let ph := phdr f i
  if ph.p_type ≠ PT_LOAD ∨ ph.p_memsz = 0 then s
  else
    (if ph.p_vaddr < s.1 then ph.p_vaddr else s.1,
      if s.2 < (ph.p_vaddr + ph.p_memsz) % 2 ^ 64 then (ph.p_vaddr + ph.p_memsz) % 2 ^ 64 else s.2)

/-- `vmin` and `vmax`. -/
def extent (f : Buf) : ℕ × ℕ := forLoop (e_phnum f) (extentStep f) (2 ^ 64 - 1, 0)

/-- `span`. -/
def imageSpan (f : Buf) : ℕ :=
  ((extent f).2 + 2 ^ 64 - (extent f).1 + (EFI_PAGE_SIZE - 1)) % 2 ^ 64 / EFI_PAGE_SIZE * EFI_PAGE_SIZE

/-- `pages`, with room to align the base. -/
def imagePages (f : Buf) : ℕ := (imageSpan f + KALIGN) % 2 ^ 64 / EFI_PAGE_SIZE

/-- `base`. -/
def imageBase (raw : ℕ) : ℕ := (raw + (KALIGN - 1)) % 2 ^ 64 / KALIGN * KALIGN

/-- One round of the second pass. -/
def copySegment (elf vmin base i : ℕ) (m : Phys) : Phys :=
  let ph := phdr (m.file elf) i
  if ph.p_type ≠ PT_LOAD ∨ ph.p_memsz = 0 then m
  else memCpy (base + (ph.p_vaddr + 2 ^ 64 - vmin) % 2 ^ 64) (elf + ph.p_offset) ph.p_filesz m

/-- The second pass.  Each round reads `e_phnum` in memory again. -/
def copySegments (elf vmin base : ℕ) : ℕ → ℕ → Phys → Phys
  | 0, _, m => m
  | fuel + 1, i, m =>
    if i < e_phnum (m.file elf) then copySegments elf vmin base fuel (i + 1) (copySegment elf vmin base i m) else m

/-- What `load_kernel` leaves behind. -/
structure LoadedKernel where
  bi : BootInfo
  entry_off : ℕ
  mem : Phys

/-- `load_kernel`; an error is the arguments of `die`, which does not return.  A program header has a number of 16 bits,
so that 65535 rounds of the second pass are enough. -/
def loadKernel (allocatePages : ℕ → Except ℕ ℕ) (elf : ℕ) (bi : BootInfo) (m : Phys) :
    Except (String × ℕ) LoadedKernel :=
  let f := m.file elf
  if f 0 ≠ 0x7F ∨ f 1 ≠ 0x45 ∨ f 2 ≠ 0x4C ∨ f 3 ≠ 0x46 then .error ("kernel.elf: bad magic", 0)
  else
    let vmin := (extent f).1
    if vmin = 2 ^ 64 - 1 then .error ("kernel.elf: no PT_LOAD", 0)
    else
      let span := imageSpan f
      match allocatePages (imagePages f) with
      | .error st => .error ("AllocatePages(kernel)", st)
      | .ok raw =>
        let base := imageBase raw
        let m := copySegments elf vmin base 65535 0 (memSet base 0 span m)
        .ok {
          bi := { bi with kernel_phys_base := base, kernel_virt_base := vmin, kernel_size := span }
          entry_off := (e_entry (m.file elf) + 2 ^ 64 - vmin) % 2 ^ 64
          mem := m }

/-! ### What is asked of it -/

/-- The segment is loaded. -/
def Elf64Phdr.Loaded (ph : Elf64Phdr) : Prop := ph.p_type = PT_LOAD ∧ ph.p_memsz ≠ 0

instance (ph : Elf64Phdr) : Decidable ph.Loaded := inferInstanceAs (Decidable (_ ∧ _))

/-- The file has the byte of the segment at the address `v`. -/
def Elf64Phdr.HasByte (ph : Elf64Phdr) (v : ℕ) : Prop := ph.p_vaddr ≤ v ∧ v < ph.p_vaddr + ph.p_filesz

/-- A kernel as the linker writes it, of `size` bytes. -/
structure KernelElf (f : Buf) (size : ℕ) : Prop where
  magic : f 0 = 0x7F ∧ f 1 = 0x45 ∧ f 2 = 0x4C ∧ f 3 = 0x46
  header : 64 ≤ size
  table : ∀ i < e_phnum f, phdrOffset f i + 56 ≤ size
  sizes : ∀ i < e_phnum f, (phdr f i).p_type = PT_LOAD → (phdr f i).p_filesz ≤ (phdr f i).p_memsz
  noWrap : ∀ i < e_phnum f, (phdr f i).p_type = PT_LOAD → (phdr f i).p_vaddr + (phdr f i).p_memsz < 2 ^ 64
  inFile : ∀ i < e_phnum f, (phdr f i).p_type = PT_LOAD → (phdr f i).p_offset + (phdr f i).p_filesz ≤ size

/-- The kernel has a segment. -/
def HasSegment (f : Buf) : Prop := ∃ i < e_phnum f, (phdr f i).Loaded

/-- What UEFI says of `AllocatePages`: it gives whole pages of the address space that are not in use, so not those of
the file. -/
structure GrantsPages (allocatePages : ℕ → Except ℕ ℕ) (elf size : ℕ) : Prop where
  aligned : ∀ n raw, 0 < n → allocatePages n = .ok raw → raw % EFI_PAGE_SIZE = 0
  fits : ∀ n raw, 0 < n → allocatePages n = .ok raw → raw + n * EFI_PAGE_SIZE ≤ 2 ^ 64
  fresh : ∀ n raw, 0 < n → allocatePages n = .ok raw → raw + n * EFI_PAGE_SIZE ≤ elf ∨ elf + size ≤ raw

/-- The image of the kernel in the pages from `raw` on: where it is, what was written, what it holds, and what
`boot_info` says of it. -/
structure ImagePlaced (f : Buf) (raw pages : ℕ) (bi : BootInfo) (m : Phys) (out : LoadedKernel) : Prop where
  aligned : out.bi.kernel_phys_base % KALIGN = 0
  inside : raw ≤ out.bi.kernel_phys_base ∧
    out.bi.kernel_phys_base + out.bi.kernel_size ≤ raw + pages * EFI_PAGE_SIZE
  writes : ∀ a, out.mem.written a = true → m.written a = true ∨
    out.bi.kernel_phys_base ≤ a ∧ a < out.bi.kernel_phys_base + out.bi.kernel_size
  rest : ∀ a, ¬(out.bi.kernel_phys_base ≤ a ∧ a < out.bi.kernel_phys_base + out.bi.kernel_size) →
    out.mem.byte a = m.byte a
  covers : ∀ i < e_phnum f, (phdr f i).Loaded → out.bi.kernel_virt_base ≤ (phdr f i).p_vaddr ∧
    (phdr f i).p_vaddr + (phdr f i).p_memsz ≤ out.bi.kernel_virt_base + out.bi.kernel_size
  first : ∃ i < e_phnum f, (phdr f i).Loaded ∧ (phdr f i).p_vaddr = out.bi.kernel_virt_base
  last : ∃ i < e_phnum f, (phdr f i).Loaded ∧ out.bi.kernel_virt_base + out.bi.kernel_size <
    (phdr f i).p_vaddr + (phdr f i).p_memsz + EFI_PAGE_SIZE
  wholePages : out.bi.kernel_size % EFI_PAGE_SIZE = 0
  bytes : ∀ i < e_phnum f, (phdr f i).Loaded → ∀ k < (phdr f i).p_filesz,
    (∀ j < e_phnum f, j ≠ i → (phdr f j).Loaded → ¬(phdr f j).HasByte ((phdr f i).p_vaddr + k)) →
    out.mem.byte (out.bi.kernel_phys_base + ((phdr f i).p_vaddr + k - out.bi.kernel_virt_base)) =
      f ((phdr f i).p_offset + k)
  zeros : ∀ o < out.bi.kernel_size,
    (∀ i < e_phnum f, (phdr f i).Loaded → ¬(phdr f i).HasByte (out.bi.kernel_virt_base + o)) →
    out.mem.byte (out.bi.kernel_phys_base + o) = 0
  entry : out.entry_off < 2 ^ 64 ∧ (out.bi.kernel_virt_base + out.entry_off) % 2 ^ 64 = e_entry f
  others : out.bi = { bi with
    kernel_phys_base := out.bi.kernel_phys_base
    kernel_virt_base := out.bi.kernel_virt_base
    kernel_size := out.bi.kernel_size }

/-- No two segments are so far apart that the size of the image, rounded up and with the room for its alignment, is more
than 64 bits hold. -/
def Spans64 (f : Buf) : Prop :=
  ∀ i < e_phnum f, ∀ j < e_phnum f, (phdr f i).Loaded → (phdr f j).Loaded →
    (phdr f i).p_vaddr + (phdr f i).p_memsz + KALIGN + EFI_PAGE_SIZE ≤ (phdr f j).p_vaddr + 2 ^ 64

instance (f : Buf) : Decidable (Spans64 f) :=
  inferInstanceAs (Decidable (∀ i < e_phnum f, ∀ j < e_phnum f, _ → _ → _ ≤ _))

/-! ### Stores to memory -/

/-- The `n` bytes from `lo` on have been written, and are those of `src`. -/
structure Stored (m m' : Phys) (lo n : ℕ) (src : Buf) : Prop where
  byte : m'.byte = splice m.byte lo src n
  writes : ∀ a, m'.written a = true → m.written a = true ∨ lo ≤ a ∧ a < lo + n

section

variable {f g src : Buf} {m m' : Phys} {lo n d s i elf size vmin base span raw : ℕ}

theorem Stored.rest (h : Stored m m' lo n src) (a : ℕ) (ha : ¬(lo ≤ a ∧ a < lo + n)) : m'.byte a = m.byte a := by
  rw [h.byte, splice_outside (by omega)]

theorem stored_nothing : Stored m m lo 0 src := ⟨(splice_nothing _ _ _).symm, fun _ => .inl⟩

theorem Stored.put (h : Stored m m' lo n src) (hfit : lo + n < 2 ^ 64) :
    Stored m (m'.put (lo + n) (src n)) lo (n + 1) src := by
  have hp : (lo + n) % 2 ^ 64 = lo + n := Nat.mod_eq_of_lt hfit
  constructor
  · rw [Phys.put, hp, h.byte]
    exact splice_succ
  · intro a ha
    rw [Phys.put, hp] at ha
    by_cases heq : a = lo + n
    · exact .inr (by omega)
    · have hold : m'.written a = true := (Function.update_of_ne heq true m'.written).symm.trans ha
      rcases h.writes a hold with hm | hin
      · exact .inl hm
      · exact .inr (by omega)

theorem memSet_spec (c : UInt8) (hfit : d + n ≤ 2 ^ 64) : Stored m (memSet d c n m) d n fun _ => c :=
  forLoop_invariant (I := fun k m' => Stored m m' d k fun _ => c) stored_nothing fun _ _ hk hm' => hm'.put (by omega)

theorem memCpy_spec (hfit : d + n ≤ 2 ^ 64) (hsrc : s + n ≤ 2 ^ 64) (hapart : d + n ≤ s ∨ s + n ≤ d) :
    Stored m (memCpy d s n m) d n (m.file s) := by
  refine forLoop_invariant (I := fun k m' => Stored m m' d k (m.file s)) stored_nothing fun k m' hk hm' => ?_
  -- what is read has not been written
  have hread : m'.file s k = m.file s k := by
    rw [Phys.file, Phys.file, Nat.mod_eq_of_lt (by omega), hm'.rest _ (by omega)]
  rw [hread]
  exact hm'.put (by omega)

/-! ### The file stays -/

/-- A file apart from what is written. -/
theorem file_of_rest (hbuf : elf + size ≤ 2 ^ 64) (hapart : lo + n ≤ elf ∨ elf + size ≤ lo)
    (hrest : ∀ a, ¬(lo ≤ a ∧ a < lo + n) → m'.byte a = m.byte a) : ∀ k < size, m'.file elf k = m.file elf k := by
  intro k hk
  rw [Phys.file, Phys.file, Nat.mod_eq_of_lt (by omega), hrest _ (by omega)]

theorem loadLe_file {off w : ℕ} (hg : ∀ k < size, g k = f k) (hin : off + w ≤ size) :
    loadLe g off w = loadLe f off w :=
  loadLe_congr fun _ hk => hg _ (by omega)

theorem KernelElf.e_phnum_eq (hk : KernelElf f size) (hg : ∀ k < size, g k = f k) : e_phnum g = e_phnum f := by
  have hheader := hk.header
  exact loadLe_file hg (by omega)

theorem KernelElf.e_entry_eq (hk : KernelElf f size) (hg : ∀ k < size, g k = f k) : e_entry g = e_entry f := by
  have hheader := hk.header
  exact loadLe_file hg (by omega)

theorem KernelElf.phdr_eq (hk : KernelElf f size) (hg : ∀ k < size, g k = f k) (hi : i < e_phnum f) :
    phdr g i = phdr f i := by
  have hheader := hk.header
  have htable := hk.table i hi
  have hoff : phdrOffset g i = phdrOffset f i := by
    rw [phdrOffset, phdrOffset, e_phoff, e_phentsize, loadLe_file hg (by omega), loadLe_file hg (by omega)]
    rfl
  rw [phdr, phdr, hoff, loadLe_file hg (by omega), loadLe_file hg (by omega), loadLe_file hg (by omega),
    loadLe_file hg (by omega), loadLe_file hg (by omega)]

/-! ### The first pass -/

/-- What the first `n` headers say of `vmin` and `vmax`. -/
structure Extent (f : Buf) (n vmin vmax : ℕ) : Prop where
  low : ∀ i < n, (phdr f i).Loaded → vmin ≤ (phdr f i).p_vaddr
  high : ∀ i < n, (phdr f i).Loaded → (phdr f i).p_vaddr + (phdr f i).p_memsz ≤ vmax
  first : (∃ i < n, (phdr f i).Loaded) → ∃ i < n, (phdr f i).Loaded ∧ (phdr f i).p_vaddr = vmin
  last : (∃ i < n, (phdr f i).Loaded) →
    ∃ i < n, (phdr f i).Loaded ∧ (phdr f i).p_vaddr + (phdr f i).p_memsz = vmax
  none : (¬∃ i < n, (phdr f i).Loaded) → vmin = 2 ^ 64 - 1 ∧ vmax = 0

theorem Extent.nothing : Extent f 0 (2 ^ 64 - 1) 0 where
  low _ hi := absurd hi (Nat.not_lt_zero _)
  high _ hi := absurd hi (Nat.not_lt_zero _)
  first h := absurd h fun ⟨_, hi, _⟩ => Nat.not_lt_zero _ hi
  last h := absurd h fun ⟨_, hi, _⟩ => Nat.not_lt_zero _ hi
  none _ := ⟨rfl, rfl⟩

/-- What holds of the headers before `n`, and of the header `n` where it is loaded, holds of all up to `n`. -/
theorem loaded_succ {P : ℕ → Prop} (hold : ∀ i < n, (phdr f i).Loaded → P i) (hnew : (phdr f n).Loaded → P n) :
    ∀ i < n + 1, (phdr f i).Loaded → P i := by
  intro i hi hload
  rcases Nat.lt_succ_iff_lt_or_eq.mp hi with hlt | rfl
  · exact hold i hlt hload
  · exact hnew hload

theorem Extent.skip {vmin vmax : ℕ} (h : Extent f n vmin vmax) (hload : ¬(phdr f n).Loaded) :
    Extent f (n + 1) vmin vmax := by
  have hsome : (∃ i < n + 1, (phdr f i).Loaded) → ∃ i < n, (phdr f i).Loaded := by
    rintro ⟨i, hi, hi'⟩
    rcases Nat.lt_succ_iff_lt_or_eq.mp hi with hlt | rfl
    · exact ⟨i, hlt, hi'⟩
    · exact absurd hi' hload
  refine ⟨loaded_succ h.low fun hn => absurd hn hload, loaded_succ h.high fun hn => absurd hn hload, fun hs => ?_,
    fun hs => ?_, fun hs => h.none fun ⟨i, hi, hi'⟩ => hs ⟨i, Nat.lt_succ_of_lt hi, hi'⟩⟩
  · obtain ⟨i, hi, hi'⟩ := h.first (hsome hs)
    exact ⟨i, Nat.lt_succ_of_lt hi, hi'⟩
  · obtain ⟨i, hi, hi'⟩ := h.last (hsome hs)
    exact ⟨i, Nat.lt_succ_of_lt hi, hi'⟩

theorem Extent.add {vmin vmax : ℕ} (h : Extent f n vmin vmax) (hload : (phdr f n).Loaded)
    (hnoWrap : (phdr f n).p_vaddr + (phdr f n).p_memsz < 2 ^ 64) :
    Extent f (n + 1) (min vmin (phdr f n).p_vaddr) (max vmax ((phdr f n).p_vaddr + (phdr f n).p_memsz)) := by
  have hself : (phdr f n).Loaded ∧ n < n + 1 := ⟨hload, Nat.lt_succ_self n⟩
  refine ⟨loaded_succ (fun i hi hi' => (Nat.min_le_left _ _).trans (h.low i hi hi')) fun _ => Nat.min_le_right _ _,
    loaded_succ (fun i hi hi' => (h.high i hi hi').trans (Nat.le_max_left _ _)) fun _ => Nat.le_max_right _ _,
    fun _ => ?_, fun _ => ?_, fun hs => absurd ⟨n, hself.2, hself.1⟩ hs⟩
  · by_cases hsome : ∃ i < n, (phdr f i).Loaded
    · obtain ⟨i, hi, hi', heq⟩ := h.first hsome
      rcases Nat.le_total vmin (phdr f n).p_vaddr with hle | hle
      · exact ⟨i, Nat.lt_succ_of_lt hi, hi', by rw [Nat.min_eq_left hle, heq]⟩
      · exact ⟨n, hself.2, hself.1, (Nat.min_eq_right hle).symm⟩
    · obtain ⟨hvmin, -⟩ := h.none hsome
      exact ⟨n, hself.2, hself.1, (Nat.min_eq_right (by omega)).symm⟩
  · by_cases hsome : ∃ i < n, (phdr f i).Loaded
    · obtain ⟨i, hi, hi', heq⟩ := h.last hsome
      rcases Nat.le_total ((phdr f n).p_vaddr + (phdr f n).p_memsz) vmax with hle | hle
      · exact ⟨i, Nat.lt_succ_of_lt hi, hi', by rw [Nat.max_eq_left hle, heq]⟩
      · exact ⟨n, hself.2, hself.1, (Nat.max_eq_right hle).symm⟩
    · obtain ⟨-, hvmax⟩ := h.none hsome
      exact ⟨n, hself.2, hself.1, (Nat.max_eq_right (by omega)).symm⟩

theorem loaded_iff (ph : Elf64Phdr) : ¬(ph.p_type ≠ PT_LOAD ∨ ph.p_memsz = 0) ↔ ph.Loaded := by
  rw [not_or, not_not]
  rfl

/-- `vmin` and `vmax` are the least address and the greatest end of a segment. -/
theorem KernelElf.extent_spec (hk : KernelElf f size) : Extent f (e_phnum f) (extent f).1 (extent f).2 := by
  refine forLoop_invariant (I := fun n (s : ℕ × ℕ) => Extent f n s.1 s.2) Extent.nothing fun n s hn hs => ?_
  rw [extentStep]
  by_cases hload : (phdr f n).Loaded
  · have hnoWrap := hk.noWrap n hn hload.1
    have hmod := Nat.mod_eq_of_lt hnoWrap
    rw [if_neg ((loaded_iff _).mpr hload), hmod]
    have hmin : (if (phdr f n).p_vaddr < s.1 then (phdr f n).p_vaddr else s.1) = min s.1 (phdr f n).p_vaddr := by
      split <;> omega
    have hmax : (if s.2 < (phdr f n).p_vaddr + (phdr f n).p_memsz then (phdr f n).p_vaddr + (phdr f n).p_memsz
        else s.2) = max s.2 ((phdr f n).p_vaddr + (phdr f n).p_memsz) := by
      split <;> omega
    rw [hmin, hmax]
    exact hs.add hload hnoWrap
  · rw [if_pos (not_not.mp fun h => hload ((loaded_iff _).mp h))]
    exact hs.skip hload

/-! ### The second pass -/

/-- The pages from `base` on have room for the segments, and are not those of the file. -/
structure Room (f : Buf) (size elf vmin base span : ℕ) : Prop where
  kernel : KernelElf f size
  buffer : elf + size ≤ 2 ^ 64
  within : ∀ i < e_phnum f, (phdr f i).Loaded →
    vmin ≤ (phdr f i).p_vaddr ∧ (phdr f i).p_vaddr + (phdr f i).p_memsz ≤ vmin + span
  region : base + span ≤ 2 ^ 64
  apart : base + span ≤ elf ∨ elf + size ≤ base

theorem copySegment_skip (h : ¬(phdr (m.file elf) i).Loaded) : copySegment elf vmin base i m = m :=
  if_pos (not_not.mp fun hn => h ((loaded_iff _).mp hn))

/-- A segment gets the bytes that the file has for it. -/
theorem Room.copySegment (h : Room f size elf vmin base span) (hi : i < e_phnum f) (hload : (phdr f i).Loaded)
    (hfile : ∀ k < size, m.file elf k = f k) :
    Stored m (copySegment elf vmin base i m) (base + ((phdr f i).p_vaddr - vmin)) (phdr f i).p_filesz
      (fun k => f ((phdr f i).p_offset + k)) := by
  obtain ⟨hlow, hhigh⟩ := h.within i hi hload
  have hsizes := h.kernel.sizes i hi hload.1
  have hnoWrap := h.kernel.noWrap i hi hload.1
  have hinFile := h.kernel.inFile i hi hload.1
  have hregion := h.region
  have hbuffer := h.buffer
  have hapart := h.apart
  have hdst : ((phdr f i).p_vaddr + 2 ^ 64 - vmin) % 2 ^ 64 = (phdr f i).p_vaddr - vmin := by omega
  have hbytes : ∀ k < (phdr f i).p_filesz, m.file (elf + (phdr f i).p_offset) k = f ((phdr f i).p_offset + k) := by
    intro k hk
    rw [← hfile _ (by omega), Phys.file, Phys.file, Nat.add_assoc]
  have hcopy : Boot.copySegment elf vmin base i m =
      memCpy (base + ((phdr f i).p_vaddr - vmin)) (elf + (phdr f i).p_offset) (phdr f i).p_filesz m := by
    rw [Boot.copySegment, h.kernel.phdr_eq hfile hi, if_neg ((loaded_iff _).mpr hload), hdst]
  have hstored := memCpy_spec (m := m) (d := base + ((phdr f i).p_vaddr - vmin)) (s := elf + (phdr f i).p_offset)
    (n := (phdr f i).p_filesz) (by omega) (by omega) (by omega)
  rw [hcopy]
  exact ⟨hstored.byte.trans (splice_congr hbytes), hstored.writes⟩

/-- What the second pass does from the header `i` on. -/
structure Copied (f : Buf) (vmin base span i : ℕ) (m m' : Phys) : Prop where
  kept : ∀ o < span, (∀ j < e_phnum f, i ≤ j → (phdr f j).Loaded → ¬(phdr f j).HasByte (vmin + o)) →
    m'.byte (base + o) = m.byte (base + o)
  filled : ∀ j < e_phnum f, i ≤ j → (phdr f j).Loaded → ∀ k < (phdr f j).p_filesz,
    (∀ l < e_phnum f, i ≤ l → l ≠ j → (phdr f l).Loaded → ¬(phdr f l).HasByte ((phdr f j).p_vaddr + k)) →
    m'.byte (base + ((phdr f j).p_vaddr + k - vmin)) = f ((phdr f j).p_offset + k)
  writes : ∀ a, m'.written a = true → m.written a = true ∨ base ≤ a ∧ a < base + span
  rest : ∀ a, ¬(base ≤ a ∧ a < base + span) → m'.byte a = m.byte a

theorem Copied.done (h : e_phnum f ≤ i) : Copied f vmin base span i m m where
  kept _ _ _ := rfl
  filled j hj hij := absurd hj (by omega)
  writes _ := .inl
  rest _ _ := rfl

theorem Copied.skip (h : Copied f vmin base span (i + 1) m m') (hload : ¬(phdr f i).Loaded) :
    Copied f vmin base span i m m' := by
  have hne : ∀ j, i ≤ j → (phdr f j).Loaded → i + 1 ≤ j := by
    intro j hij hj
    rcases Nat.lt_or_eq_of_le hij with hlt | rfl
    · exact hlt
    · exact absurd hj hload
  exact ⟨fun o ho hno => h.kept o ho fun j hj hij => hno j hj (Nat.le_of_succ_le hij),
    fun j hj hij hj' k hk hno => h.filled j hj (hne j hij hj') hj' k hk fun l hl hil =>
      hno l hl (Nat.le_of_succ_le hil), h.writes, h.rest⟩

/-- A segment, and the later ones. -/
theorem Room.copied (hroom : Room f size elf vmin base span) (hi : i < e_phnum f) (hload : (phdr f i).Loaded)
    {m₁ : Phys} (hst : Stored m m₁ (base + ((phdr f i).p_vaddr - vmin)) (phdr f i).p_filesz
      fun k => f ((phdr f i).p_offset + k)) (h : Copied f vmin base span (i + 1) m₁ m') :
    Copied f vmin base span i m m' := by
  obtain ⟨hlow, hhigh⟩ := hroom.within i hi hload
  have hsizes := hroom.kernel.sizes i hi hload.1
  refine ⟨fun o ho hno => ?_, fun j hj hij hj' k hk hno => ?_, fun a ha => ?_, fun a ha => ?_⟩
  · have hout : ¬(phdr f i).HasByte (vmin + o) := hno i hi le_rfl hload
    rw [Elf64Phdr.HasByte] at hout
    rw [h.kept o ho fun j hj hij => hno j hj (Nat.le_of_succ_le hij), hst.rest _ (by omega)]
  · rcases Nat.lt_or_eq_of_le hij with hlt | rfl
    · exact h.filled j hj hlt hj' k hk fun l hl hil => hno l hl (Nat.le_of_succ_le hil)
    · -- the later segments leave the bytes of this one
      have hkept := h.kept ((phdr f i).p_vaddr + k - vmin) (by omega) fun j hj hij hj' => by
        rw [Nat.add_sub_cancel' (by omega)]
        exact hno j hj (Nat.le_of_succ_le hij) (by omega) hj'
      rw [hkept, Nat.sub_add_comm hlow, ← Nat.add_assoc, hst.byte, splice_inside hk]
  · rcases h.writes a ha with hm | hin
    · rcases hst.writes a hm with hm | hin
      · exact .inl hm
      · exact .inr (by omega)
    · exact .inr hin
  · rw [h.rest a ha, hst.rest a (by omega)]

/-- The second pass copies the segments that are left, and leaves the file. -/
theorem Room.copySegments (h : Room f size elf vmin base span) {fuel : ℕ} (hfuel : e_phnum f ≤ fuel + i)
    (hfile : ∀ k < size, m.file elf k = f k) : Copied f vmin base span i m (copySegments elf vmin base fuel i m) := by
  induction fuel generalizing i m with
  | zero => exact Copied.done (by omega)
  | succ fuel ih =>
    rw [Boot.copySegments, h.kernel.e_phnum_eq hfile]
    split
    next hi =>
      by_cases hload : (phdr f i).Loaded
      · have hst := h.copySegment hi hload hfile
        obtain ⟨hlow, hhigh⟩ := h.within i hi hload
        have hsizes := h.kernel.sizes i hi hload.1
        have hapart := h.apart
        have hfile' : ∀ k < size, (Boot.copySegment elf vmin base i m).file elf k = m.file elf k :=
          file_of_rest h.buffer (by omega) hst.rest
        exact h.copied hi hload hst (ih (by omega) fun k hk => (hfile' k hk).trans (hfile k hk))
      · have hsame : Boot.copySegment elf vmin base i m = m :=
          copySegment_skip (by rwa [h.kernel.phdr_eq hfile hi])
        rw [hsame]
        exact (ih (by omega) hfile).skip hload
    next hi => exact Copied.done (by omega)

/-! ### Where the image goes -/

/-- The size of an image that spans little enough is rounded up to whole pages, and the pages that are asked for have it
and the room for its alignment. -/
theorem imageSpan_spec {vmin vmax : ℕ} (hlow : vmin < vmax) (hext : extent f = (vmin, vmax))
    (hroom : vmax + KALIGN + EFI_PAGE_SIZE ≤ vmin + 2 ^ 64) :
    imageSpan f % EFI_PAGE_SIZE = 0 ∧ vmax ≤ vmin + imageSpan f ∧ vmin + imageSpan f < vmax + EFI_PAGE_SIZE ∧
      0 < imagePages f ∧ imagePages f * EFI_PAGE_SIZE = imageSpan f + KALIGN := by
  have hspan : imageSpan f = (vmax + 2 ^ 64 - vmin + (EFI_PAGE_SIZE - 1)) % 2 ^ 64 / EFI_PAGE_SIZE * EFI_PAGE_SIZE := by
    rw [imageSpan, hext]
  rw [imagePages, hspan]
  simp only [EFI_PAGE_SIZE, KALIGN] at hroom ⊢
  omega

/-- An image that is covered and inside its pages has not been rounded past 64 bits. -/
theorem spans64_of_inside {vmin vmax base : ℕ} (hext : extent f = (vmin, vmax))
    (hcovers : vmax ≤ vmin + imageSpan f) (hraw : raw ≤ base)
    (hinside : base + imageSpan f ≤ raw + imagePages f * EFI_PAGE_SIZE) :
    vmax + KALIGN + EFI_PAGE_SIZE ≤ vmin + 2 ^ 64 := by
  have hspan : imageSpan f = (vmax + 2 ^ 64 - vmin + (EFI_PAGE_SIZE - 1)) % 2 ^ 64 / EFI_PAGE_SIZE * EFI_PAGE_SIZE := by
    rw [imageSpan, hext]
  rw [imagePages] at hinside
  simp only [EFI_PAGE_SIZE, KALIGN] at hspan hinside ⊢
  omega

theorem imageBase_spec (hraw : raw % EFI_PAGE_SIZE = 0) (hfits : raw + KALIGN ≤ 2 ^ 64) :
    imageBase raw % KALIGN = 0 ∧ raw ≤ imageBase raw ∧ imageBase raw < raw + KALIGN := by
  rw [imageBase]
  simp only [EFI_PAGE_SIZE, KALIGN] at hraw hfits ⊢
  omega

theorem KernelElf.not_badMagic (hk : KernelElf f size) :
    ¬(f 0 ≠ 0x7F ∨ f 1 ≠ 0x45 ∨ f 2 ≠ 0x4C ∨ f 3 ≠ 0x46) := by
  obtain ⟨h0, h1, h2, h3⟩ := hk.magic
  rw [h0, h1, h2, h3]
  decide

theorem KernelElf.extent_lt (hk : KernelElf f size) (hseg : HasSegment f) :
    (extent f).1 < (extent f).2 ∧ (extent f).2 < 2 ^ 64 := by
  obtain ⟨i, hi, hload, heq⟩ := hk.extent_spec.last hseg
  have hlow := hk.extent_spec.low i hi hload
  have hnoWrap := hk.noWrap i hi hload.1
  have hpos := hload.2
  omega

theorem KernelElf.spans64_iff (hk : KernelElf f size) (hseg : HasSegment f) :
    Spans64 f ↔ (extent f).2 + KALIGN + EFI_PAGE_SIZE ≤ (extent f).1 + 2 ^ 64 := by
  constructor
  · intro h
    obtain ⟨i, hi, hload, heq⟩ := hk.extent_spec.last hseg
    obtain ⟨j, hj, hload', heq'⟩ := hk.extent_spec.first hseg
    have hij := h i hi j hj hload hload'
    rwa [heq, heq'] at hij
  · intro h i hi j hj hload hload'
    have hhigh := hk.extent_spec.high i hi hload
    have hlow := hk.extent_spec.low j hj hload'
    omega

section

variable {allocatePages : ℕ → Except ℕ ℕ} {bi : BootInfo} {out : LoadedKernel}

/-- What `load_kernel` returns when it gets its pages at `raw`. -/
def placedAt (elf raw : ℕ) (bi : BootInfo) (m : Phys) : LoadedKernel :=
  let f := m.file elf
  let m' := copySegments elf (extent f).1 (imageBase raw) 65535 0 (memSet (imageBase raw) 0 (imageSpan f) m)
  { bi := { bi with kernel_phys_base := imageBase raw, kernel_virt_base := (extent f).1, kernel_size := imageSpan f }
    entry_off := (e_entry (m'.file elf) + 2 ^ 64 - (extent f).1) % 2 ^ 64
    mem := m' }

theorem loadKernel_granted (hk : KernelElf (m.file elf) size) (hseg : HasSegment (m.file elf))
    (hgrant : allocatePages (imagePages (m.file elf)) = .ok raw) :
    loadKernel allocatePages elf bi m = .ok (placedAt elf raw bi m) := by
  obtain ⟨hlow, hhigh⟩ := hk.extent_lt hseg
  have hvmin : (extent (m.file elf)).1 ≠ 2 ^ 64 - 1 := by omega
  rw [loadKernel, placedAt]
  simp only [if_neg hk.not_badMagic, if_neg hvmin, hgrant]

theorem loadKernel_refused (hk : KernelElf (m.file elf) size) (hseg : HasSegment (m.file elf)) {st : ℕ}
    (hgrant : allocatePages (imagePages (m.file elf)) = .error st) :
    loadKernel allocatePages elf bi m = .error ("AllocatePages(kernel)", st) := by
  obtain ⟨hlow, hhigh⟩ := hk.extent_lt hseg
  have hvmin : (extent (m.file elf)).1 ≠ 2 ^ 64 - 1 := by omega
  rw [loadKernel]
  simp only [if_neg hk.not_badMagic, if_neg hvmin, hgrant]

theorem loadKernel_empty (hk : KernelElf (m.file elf) size) (hseg : ¬HasSegment (m.file elf)) :
    loadKernel allocatePages elf bi m = .error ("kernel.elf: no PT_LOAD", 0) := by
  rw [loadKernel]
  simp only [if_neg hk.not_badMagic, if_pos (hk.extent_spec.none hseg).1]

/-- Where the kernel spans little enough, its image is placed. -/
theorem placedAt_placed (hk : KernelElf (m.file elf) size) (hbuf : elf + size ≤ 2 ^ 64)
    (hfw : GrantsPages allocatePages elf size) (hseg : HasSegment (m.file elf))
    (hgrant : allocatePages (imagePages (m.file elf)) = .ok raw) (hspan : Spans64 (m.file elf)) :
    ImagePlaced (m.file elf) raw (imagePages (m.file elf)) bi m (placedAt elf raw bi m) := by
  obtain ⟨hlow, hhigh⟩ := hk.extent_lt hseg
  have hext := hk.extent_spec
  obtain ⟨hwhole, hcovers, htight, hpos, hpages⟩ := imageSpan_spec hlow rfl ((hk.spans64_iff hseg).mp hspan)
  have hraw := hfw.aligned _ _ hpos hgrant
  have hfits := hfw.fits _ _ hpos hgrant
  have hfresh := hfw.fresh _ _ hpos hgrant
  rw [hpages] at hfits hfresh
  obtain ⟨haligned, hbase, hbase'⟩ := imageBase_spec hraw (by omega)
  have hroom : Room (m.file elf) size elf (extent (m.file elf)).1 (imageBase raw) (imageSpan (m.file elf)) := by
    refine ⟨hk, hbuf, fun i hi hload => ?_, by omega, by omega⟩
    have hi' := hext.low i hi hload
    have hi'' := hext.high i hi hload
    omega
  have hset : Stored m (memSet (imageBase raw) 0 (imageSpan (m.file elf)) m) (imageBase raw) (imageSpan (m.file elf))
      fun _ => 0 := memSet_spec 0 hroom.region
  have hcopied : Copied (m.file elf) (extent (m.file elf)).1 (imageBase raw) (imageSpan (m.file elf)) 0
      (memSet (imageBase raw) 0 (imageSpan (m.file elf)) m) (placedAt elf raw bi m).mem :=
    hroom.copySegments (Nat.le_of_lt_succ (loadLe_lt _ 56 2)) (file_of_rest hbuf hroom.apart hset.rest)
  have hrest : ∀ a, ¬(imageBase raw ≤ a ∧ a < imageBase raw + imageSpan (m.file elf)) →
      (placedAt elf raw bi m).mem.byte a = m.byte a := fun a ha => (hcopied.rest a ha).trans (hset.rest a ha)
  have hentry : e_entry ((placedAt elf raw bi m).mem.file elf) = e_entry (m.file elf) :=
    hk.e_entry_eq (file_of_rest hbuf hroom.apart hrest)
  have hentry' : e_entry (m.file elf) < 2 ^ 64 := loadLe_lt _ 24 8
  refine ⟨haligned, ⟨hbase, ?_⟩, fun a ha => ?_, hrest, hroom.within, hext.first hseg, ?_, hwhole,
    fun i hi hload k hk' hno => ?_, fun o ho hno => ?_, ⟨Nat.mod_lt _ (by decide), ?_⟩, rfl⟩
  · show imageBase raw + imageSpan (m.file elf) ≤ raw + imagePages (m.file elf) * EFI_PAGE_SIZE
    omega
  · rcases hcopied.writes a ha with hm | hin
    · exact hset.writes a hm
    · exact .inr hin
  · obtain ⟨i, hi, hload, heq⟩ := hext.last hseg
    refine ⟨i, hi, hload, ?_⟩
    rw [heq]
    exact htight
  · exact hcopied.filled i hi (Nat.zero_le i) hload k hk' fun j hj _ => hno j hj
  · refine (hcopied.kept o ho fun i hi _ => hno i hi).trans ?_
    rw [hset.byte]
    exact splice_inside ho
  · show ((extent (m.file elf)).1 + (e_entry ((placedAt elf raw bi m).mem.file elf) + 2 ^ 64 -
      (extent (m.file elf)).1) % 2 ^ 64) % 2 ^ 64 = _
    rw [hentry]
    omega

/-- **How `load_kernel` places the kernel**: a kernel without segments and a firmware without pages end it, and else the
image is placed just when the kernel does not span too much. -/
theorem loadKernel_iff (hk : KernelElf (m.file elf) size) (hbuf : elf + size ≤ 2 ^ 64)
    (hfw : GrantsPages allocatePages elf size) :
    (¬HasSegment (m.file elf) → loadKernel allocatePages elf bi m = .error ("kernel.elf: no PT_LOAD", 0)) ∧
      (HasSegment (m.file elf) → ∀ st, allocatePages (imagePages (m.file elf)) = .error st →
        loadKernel allocatePages elf bi m = .error ("AllocatePages(kernel)", st)) ∧
      (HasSegment (m.file elf) → ∀ raw, allocatePages (imagePages (m.file elf)) = .ok raw →
        ((∃ out, loadKernel allocatePages elf bi m = .ok out ∧
          ImagePlaced (m.file elf) raw (imagePages (m.file elf)) bi m out) ↔ Spans64 (m.file elf))) := by
  refine ⟨loadKernel_empty hk, fun hseg st hgrant => loadKernel_refused hk hseg hgrant, fun hseg raw hgrant => ?_⟩
  have hrun : loadKernel allocatePages elf bi m = .ok (placedAt elf raw bi m) := loadKernel_granted hk hseg hgrant
  constructor
  · rintro ⟨out, hout, hplaced⟩
    obtain rfl : placedAt elf raw bi m = out := Except.ok.inj (hrun.symm.trans hout)
    obtain ⟨i, hi, hload, heq⟩ := hk.extent_spec.last hseg
    obtain ⟨hraw, hinside⟩ := hplaced.inside
    have hcovers := (hplaced.covers i hi hload).2
    rw [heq] at hcovers
    exact (hk.spans64_iff hseg).mpr (spans64_of_inside rfl hcovers hraw hinside)
  · exact fun hspan => ⟨_, hrun, placedAt_placed hk hbuf hfw hseg hgrant hspan⟩

end

end

/-! ### Two kernels -/

/-- Memory with a file at `elf`. -/
def memoryWith (elf : ℕ) (bytes : List UInt8) : Phys :=
  ⟨fun a => if elf ≤ a then bytes.getD (a - elf) 0 else 0, fun _ => false⟩

/-- The low bytes of a number. -/
def leBytes (w v : ℕ) : List UInt8 := (List.range w).map (leByte v)

/-- A program header of a segment to load. -/
def phdrBytes (offset vaddr filesz memsz : ℕ) : List UInt8 :=
  leBytes 4 1 ++ leBytes 4 5 ++ leBytes 8 offset ++ leBytes 8 vaddr ++ leBytes 8 vaddr ++ leBytes 8 filesz ++
    leBytes 8 memsz ++ leBytes 8 0x1000

/-- An executable for this processor with a header in front of its program headers. -/
def elfBytes (entry : ℕ) (phdrs : List (List UInt8)) : List UInt8 :=
  [0x7F, 0x45, 0x4C, 0x46, 2, 1, 1, 0, 0, 0, 0, 0, 0, 0, 0, 0] ++ leBytes 2 2 ++ leBytes 2 62 ++ leBytes 4 1 ++
    leBytes 8 entry ++ leBytes 8 64 ++ leBytes 8 0 ++ leBytes 4 0 ++ leBytes 2 64 ++ leBytes 2 56 ++
    leBytes 2 phdrs.length ++ leBytes 2 64 ++ leBytes 2 0 ++ leBytes 2 0 ++ phdrs.flatten

/-- A kernel for the last 2 GiB, of 120 bytes with the first 16 in the file. -/
def highKernel : List UInt8 := elfBytes 0xFFFFFFFF80000010 [phdrBytes 0 0xFFFFFFFF80000000 16 120]

/-- A kernel with a byte at the beginning of the address space and a segment in its last 16 MiB. -/
def wideKernel : List UInt8 := elfBytes 0 [phdrBytes 0 0 0 1, phdrBytes 0 0xFFFFFFFFFF000000 16 0xFFFFFF]

/-- A firmware with 16 MiB from the second GiB on; its error is `EFI_OUT_OF_RESOURCES`. -/
def firmware16M (pages : ℕ) : Except ℕ ℕ :=
  if pages ≤ 4096 then .ok 0x40001000 else .error 0x8000000000000009

theorem firmware16M_grants {elf size : ℕ} (h : elf + size ≤ 0x40000000) : GrantsPages firmware16M elf size := by
  have hok : ∀ n raw, firmware16M n = .ok raw → n ≤ 4096 ∧ raw = 0x40001000 := by
    intro n raw hraw
    rw [firmware16M] at hraw
    split at hraw
    · exact ⟨by assumption, (Except.ok.inj hraw).symm⟩
    · cases hraw
  refine ⟨fun n raw _ hraw => ?_, fun n raw _ hraw => ?_, fun n raw _ hraw => ?_⟩ <;>
    obtain ⟨hn, rfl⟩ := hok n raw hraw <;> rw [EFI_PAGE_SIZE] <;> omega

theorem loadKernel_iff_high :
    ∃ out, loadKernel firmware16M 0x100000 ⟨0, 0, 0, 0, 0, 0, 0⟩ (memoryWith 0x100000 highKernel) = .ok out ∧
      ImagePlaced ((memoryWith 0x100000 highKernel).file 0x100000) 0x40001000
        (imagePages ((memoryWith 0x100000 highKernel).file 0x100000)) ⟨0, 0, 0, 0, 0, 0, 0⟩
        (memoryWith 0x100000 highKernel) out := by
  have hk : KernelElf ((memoryWith 0x100000 highKernel).file 0x100000) 120 := by
    constructor <;> decide
  have hseg : HasSegment ((memoryWith 0x100000 highKernel).file 0x100000) :=
    ⟨0, by decide, by decide⟩
  have hspan : Spans64 ((memoryWith 0x100000 highKernel).file 0x100000) := by
    decide
  obtain ⟨-, -, hplaced⟩ := loadKernel_iff hk (by omega) (firmware16M_grants (by omega))
  exact (hplaced hseg 0x40001000 (by decide)).mpr hspan

/-- The image of a kernel that spans the whole address space has size zero, and its last segment is written 16 MiB in
front of it, where the firmware has given nothing. -/
theorem not_imagePlaced_wide :
    KernelElf ((memoryWith 0x100000 wideKernel).file 0x100000) 176 ∧ GrantsPages firmware16M 0x100000 176 ∧
      HasSegment ((memoryWith 0x100000 wideKernel).file 0x100000) ∧
      firmware16M (imagePages ((memoryWith 0x100000 wideKernel).file 0x100000)) = .ok 0x40001000 ∧
      ¬∃ out, loadKernel firmware16M 0x100000 ⟨0, 0, 0, 0, 0, 0, 0⟩ (memoryWith 0x100000 wideKernel) = .ok out ∧
        ImagePlaced ((memoryWith 0x100000 wideKernel).file 0x100000) 0x40001000
          (imagePages ((memoryWith 0x100000 wideKernel).file 0x100000)) ⟨0, 0, 0, 0, 0, 0, 0⟩
          (memoryWith 0x100000 wideKernel) out := by
  have hk : KernelElf ((memoryWith 0x100000 wideKernel).file 0x100000) 176 := by
    constructor <;> decide
  have hseg : HasSegment ((memoryWith 0x100000 wideKernel).file 0x100000) :=
    ⟨0, by decide, by decide⟩
  refine ⟨hk, firmware16M_grants (by omega), hseg, by decide, ?_⟩
  rintro ⟨out, hrun, hplaced⟩
  have hout : (loadKernel firmware16M 0x100000 ⟨0, 0, 0, 0, 0, 0, 0⟩ (memoryWith 0x100000 wideKernel)).toOption.map
      (fun out => (out.bi.kernel_phys_base, out.mem.written 0x3F200000)) = some (0x40200000, true) := by
    decide
  rw [hrun] at hout
  have hpair : (out.bi.kernel_phys_base, out.mem.written 0x3F200000) = (0x40200000, true) := Option.some.inj hout
  obtain ⟨hbase, hwritten⟩ := Prod.mk.inj hpair
  rcases hplaced.writes _ hwritten with hm | ⟨hlow, -⟩
  · cases hm
  · omega

end LizardOs.Boot
