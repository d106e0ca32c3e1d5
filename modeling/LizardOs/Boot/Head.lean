import LizardOs.Lib.ForLoop
import LizardOs.Mm.PageTable

/-!
# The kernel entry

`_start` of `head.S`, and what the loader gives to it.  It carves page tables from the scratch region, which the loader
has zeroed, and fills them with pages of 2 MiB.  Memory is by physical address in words of 64 bits; the information of
the loader lies elsewhere.  `translate` is the translation of an address by the processor.
-/

namespace LizardOs.Boot

open LizardOs.Lib LizardOs.Mm

def SCRATCH_PAGES : ℕ := 32
def KALIGN : ℕ := 0x200000

def PTE_P : ℕ := 0x001
def PTE_RW : ℕ := 0x002
def PTE_PS : ℕ := 0x080
def PAGE_2M : ℕ := 0x200000

/-- Bytes that the processor can address physically. -/
def PHYS_END : ℕ := 2 ^ 52

/-- The fields of `boot_info` that `head.S` reads. -/
structure BootInfo where
  hhdm_base : ℕ
  highest_addr : ℕ
  kernel_phys_base : ℕ
  kernel_virt_base : ℕ
  kernel_size : ℕ
  scratch_phys_base : ℕ
  scratch_size : ℕ

/-- `boot_info` as `efi_main` fills it in: the scratch region is `SCRATCH_PAGES` pages, and the kernel, which is linked
for an address in the last 512 GiB, lies at a multiple of `KALIGN`. -/
structure LoaderInfo extends BootInfo where
  hhdm : hhdm_base = BOOT_HHDM_BASE
  highest : highest_addr < 2 ^ 64
  kernelPhys : kernel_phys_base % KALIGN = 0
  kernelFits : kernel_phys_base + kernel_size ≤ PHYS_END
  kernelVirt : kernel_virt_base % KALIGN = 0
  kernelHigh : 2 ^ 64 - 2 ^ 39 ≤ kernel_virt_base
  kernelEnd : kernel_virt_base < 2 ^ 64
  scratchSize : scratch_size = SCRATCH_PAGES * PAGE_SIZE
  scratchPage : scratch_phys_base % PAGE_SIZE = 0
  scratchFits : scratch_phys_base + scratch_size ≤ PHYS_END

/-- The memory, and the bump allocator `rbp` over the scratch region. -/
structure Carve where
  mem : ℕ → ℕ
  rbp : ℕ

/-- `movq v, (a)`. -/
def movq (m : ℕ → ℕ) (a v : ℕ) : ℕ → ℕ := Function.update m (a % 2 ^ 64) v

/-- `addq $0x1000, %rbp`; the page that is taken. -/
def Carve.page (s : Carve) : ℕ × Carve := (s.rbp, { s with rbp := (s.rbp + 0x1000) % 2 ^ 64 })

/-- `.Lid_pd` and `.Lhh_pd`: the directory `r13` maps 512 pages from `rax` on. -/
def fillPd (m : ℕ → ℕ) (r13 rax : ℕ) : ℕ → ℕ :=
  (forLoop 512 (fun rsi (s : (ℕ → ℕ) × ℕ) =>
    (movq s.1 (r13 + 8 * rsi) (s.2 ||| (PTE_P ||| PTE_RW ||| PTE_PS)), (s.2 + PAGE_2M) % 2 ^ 64)) (m, rax)).1

/-- `.Lk_pd`: `r10` pages from `rax` on, in the entries of the directory `r8` from `rsi` on. -/
def fillKernel (m : ℕ → ℕ) (r8 rsi rax r10 : ℕ) : ℕ → ℕ :=
  (forLoop r10 (fun i (s : (ℕ → ℕ) × ℕ) =>
    (movq s.1 (r8 + 8 * (rsi + i)) (s.2 ||| (PTE_P ||| PTE_RW ||| PTE_PS)), (s.2 + PAGE_2M) % 2 ^ 64)) (m, rax)).1

/-- One round of `.Lid_pdpt` and `.Lhh_pdpt`: a directory for the GiB `rcx`. -/
def mapGib (pdpt rcx : ℕ) (s : Carve) : Carve :=
  let (r13, s) := s.page
  { s with mem := fillPd (movq s.mem (pdpt + 8 * rcx) (r13 ||| (PTE_P ||| PTE_RW))) r13 (rcx * 2 ^ 30 % 2 ^ 64) }

/-- The identity map of 4 GiB. -/
def identityMap (rbx : ℕ) (s : Carve) : Carve :=
  let (r12, s) := s.page
  forLoop 4 (mapGib r12) { s with mem := movq s.mem rbx (r12 ||| (PTE_P ||| PTE_RW)) }

namespace BootInfo

/-- How many GiB the direct map has. -/
def hhdmGibs (bi : BootInfo) : ℕ :=
  let rax := (bi.highest_addr + 0x3FFFFFFF) % 2 ^ 64 / 2 ^ 30
  let rax := if rax = 0 then 1 else rax
  if rax ≤ 512 then rax else 512

/-- The direct map. -/
def hhdmMap (bi : BootInfo) (rbx : ℕ) (s : Carve) : Carve :=
  let (r11, s) := s.page
  forLoop bi.hhdmGibs (mapGib r11)
    { s with mem := movq s.mem (rbx + 8 * tableIndex bi.hhdm_base 39) (r11 ||| (PTE_P ||| PTE_RW)) }

/-- How many pages of 2 MiB the kernel needs. -/
def kernelPages (bi : BootInfo) : ℕ := (bi.kernel_size + (PAGE_2M - 1)) % 2 ^ 64 / 2 ^ 21

/-- The map of the kernel, with one directory. -/
def kernelMap (bi : BootInfo) (rbx : ℕ) (s : Carve) : Carve :=
  let (r9, s) := s.page
  let (r8, s) := s.page
  let m := movq s.mem (rbx + 8 * tableIndex bi.kernel_virt_base 39) (r9 ||| (PTE_P ||| PTE_RW))
  let m := movq m (r9 + 8 * tableIndex bi.kernel_virt_base 30) (r8 ||| (PTE_P ||| PTE_RW))
  { s with mem := fillKernel m r8 (tableIndex bi.kernel_virt_base 21) bi.kernel_phys_base bi.kernelPages }

/-- `_start` up to the load of `cr3`, which is the beginning of the scratch region. -/
def start (bi : BootInfo) (mem : ℕ → ℕ) : Carve :=
  let (rbx, s) := Carve.page ⟨mem, bi.scratch_phys_base⟩
  bi.kernelMap rbx (bi.hhdmMap rbx (identityMap rbx s))

end BootInfo

/-! ### Translation -/

/-- The physical address in an entry, bits 12 to 51. -/
def pteAddr (e : ℕ) : ℕ := e / 2 ^ 12 % 2 ^ 40 * 2 ^ 12

/-- The translation of a virtual address with four levels of tables; `none` is a fault. -/
def translate (m : ℕ → ℕ) (cr3 v : ℕ) : Option ℕ :=
  if 2 ^ 47 ≤ v ∧ v < 2 ^ 64 - 2 ^ 47 then none
  else
    let pml4e := m (pteAddr cr3 + 8 * tableIndex v 39)
    if present pml4e = false then none
    else
      let pdpte := m (pteAddr pml4e + 8 * tableIndex v 30)
      if present pdpte = false then none
      else if huge pdpte = true then some (pteAddr pdpte / 2 ^ 30 * 2 ^ 30 + v % 2 ^ 30)
      else
        let pde := m (pteAddr pdpte + 8 * tableIndex v 21)
        if present pde = false then none
        else if huge pde = true then some (pteAddr pde / 2 ^ 21 * 2 ^ 21 + v % 2 ^ 21)
        else
          let pte := m (pteAddr pde + 8 * tableIndex v 12)
          if present pte = false then none else some (pteAddr pte + v % 2 ^ 12)

end LizardOs.Boot
