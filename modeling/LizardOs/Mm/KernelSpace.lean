import LizardOs.Mm.PageMap

/-!
# The address space of the kernel

`vmm_init` makes the first table, and maps three kinds of ranges with `pgtable_maprange`: the kernel image to where the
loader has put it, and the framebuffer and every entry of the memory map to the direct map.  A range is mapped page by
page, so that the tables stand for a map from page numbers to frame numbers, and a range overwrites a stretch of it.
-/

namespace LizardOs.Mm

open LizardOs.Lib

def BI_FB_NONE : ℕ := 0

/-- `PAGE_PRESENT | PAGE_WRITABLE`. -/
def KERNEL_FLAGS : ℕ := PAGE_PRESENT ||| PAGE_WRITABLE

namespace PageMem

/-- `pgtable_maprange`. -/
def pgtableMaprange (s : PageMem) (pml4 vaddr paddr : ℕ) : ℕ → ℕ → Option PageMem
  | 0, _ => some s
  | pages + 1, flags =>
      match s.pgtableMap pml4 vaddr paddr flags with
      | none => none
      | some s => pgtableMaprange s pml4 ((vaddr + PAGE_SIZE) % 2 ^ 64) ((paddr + PAGE_SIZE) % 2 ^ 64) pages flags

end PageMem

/-- What `init_framebuffer` and `vmm_init` read: the symbols of the linker, and of the boot information the place of the
kernel, the framebuffer and the memory map. -/
structure KernelLayout where
  kernelStart : ℕ
  kernelEnd : ℕ
  kernelPhysBase : ℕ
  fbBase : ℕ
  fbSize : ℕ
  fbFormat : ℕ
  mmap : List MmapEntry

namespace KernelLayout

/-- The framebuffer that `init_framebuffer` sets up, or `NULL`. -/
def framebuffer (k : KernelLayout) : ℕ :=
  if k.fbBase = 0 ∨ k.fbFormat = BI_FB_NONE then 0 else (k.fbBase + HHDM_OFFSET) % 2 ^ 64

/-- `framebuffer_length`, a number of 32 bits. -/
def framebufferLength (k : KernelLayout) : ℕ :=
  if k.fbBase = 0 ∨ k.fbFormat = BI_FB_NONE then 0 else alignUp (k.fbSize % 2 ^ 32) % 2 ^ 32

/-- The first range of `vmm_init`. -/
def mapKernel (k : KernelLayout) (pml4 : ℕ) (s : PageMem) : Option PageMem :=
  let vstart := alignDown k.kernelStart
  let vend := alignUp k.kernelEnd
  let pstart := (k.kernelPhysBase + 2 ^ 64 - (k.kernelStart - vstart)) % 2 ^ 64
  let kernelPages := (vend + 2 ^ 64 - vstart) % 2 ^ 64 / PAGE_SIZE
  s.pgtableMaprange pml4 vstart pstart kernelPages KERNEL_FLAGS

/-- The second range of `vmm_init`. -/
def mapFramebuffer (k : KernelLayout) (pml4 : ℕ) (s : PageMem) : Option PageMem :=
  if k.framebufferLength ≠ 0 then
    s.pgtableMaprange pml4 k.framebuffer ((k.framebuffer + 2 ^ 64 - HHDM_OFFSET) % 2 ^ 64)
      (k.framebufferLength / PAGE_SIZE) KERNEL_FLAGS
  else some s

/-- One round of the loop over the memory map. -/
def mapRegion (pml4 : ℕ) (s : PageMem) (e : MmapEntry) : Option PageMem :=
  let start := alignDown e.base
  let stop := alignUp e.stop
  let pages := (stop + 2 ^ 64 - start) % 2 ^ 64 / PAGE_SIZE
  s.pgtableMaprange pml4 ((start + HHDM_OFFSET) % 2 ^ 64) start pages KERNEL_FLAGS

/-- `vmm_init`, up to `pgtable_switch`: the first table, and the tables. -/
def vmmInit (k : KernelLayout) (s : PageMem) : Option (ℕ × PageMem) := do
  let (pml4, s) ← s.pgtableAllocTable
  let s ← k.mapKernel pml4 s
  let s ← k.mapFramebuffer pml4 s
  let s ← k.mmap.foldlM (mapRegion pml4) s
  return (pml4, s)

end KernelLayout

/-! ### Tables as a map of page numbers -/

/-- The entry of a page that leads to a frame, or nowhere. -/
def entryOf : Option ℕ → ℕ
  | none => 0
  | some frame => frame * PAGE_SIZE ||| KERNEL_FLAGS

/-- The map with `n` pages from `page` on led to the frames from `frame` on. -/
def rangeMap (T : ℕ → Option ℕ) (page frame n : ℕ) : ℕ → Option ℕ :=
  fun q => if page ≤ q ∧ q < page + n then some (frame + (q - page)) else T q

theorem rangeMap_zero (T : ℕ → Option ℕ) (page frame : ℕ) : rangeMap T page frame 0 = T := by
  funext q
  exact if_neg (by omega)

/-- The first page of a range, and then the rest of it. -/
theorem rangeMap_succ (T : ℕ → Option ℕ) (page frame n : ℕ) :
    rangeMap (Function.update T page (some frame)) (page + 1) (frame + 1) n = rangeMap T page frame (n + 1) := by
  funext q
  simp only [rangeMap]
  by_cases hfirst : q = page
  · rw [if_neg (by omega), if_pos (by omega), hfirst, Function.update_self, Nat.sub_self, Nat.add_zero]
  · rw [Function.update_of_ne hfirst]
    by_cases hrest : page + 1 ≤ q ∧ q < page + 1 + n
    · rw [if_pos hrest, if_pos (by omega)]
      congr 1
      omega
    · rw [if_neg hrest, if_neg (by omega)]

namespace PageMem

variable {s s' : PageMem} {root vaddr paddr : ℕ} {frames : List ℕ} {T : ℕ → Option ℕ}

/-- The tables are a tree made of the given frames, without huge pages, and translate as the map says. -/
structure Translates (frames : List ℕ) (s : PageMem) (root : ℕ) (T : ℕ → Option ℕ) : Prop where
  tree : TreeOk TablePath TablePath s root
  leaf : ∀ v, Canonical v → s.leafOf root v = entryOf (T (v / PAGE_SIZE))
  plain : ∀ Q j, TablePath Q → huge (s.cellAt root Q j) = false
  tables : ∀ t, Reached TablePath s root t → t ∈ frames
  pool : ∀ f ∈ s.pool, f ∈ frames

theorem huge_kernel {a : ℕ} (ha : a % PAGE_SIZE = 0) : huge (a ||| KERNEL_FLAGS) = false := by
  rw [huge_entry ha (by decide)]
  decide

/-- **`pgtable_map`** for the kernel leads one page to one frame. -/
theorem Translates.map (h : Translates frames s root T) (hv : Canonical vaddr)
    (hr : s.pgtableMap root vaddr paddr KERNEL_FLAGS = some s') :
    Translates frames s' root (Function.update T (vaddr / PAGE_SIZE) (some (paddr / PAGE_SIZE))) := by
  have hclosed : Closed TablePath := Follows.closed _ 3
  have hpath := tablePath_tablePath vaddr
  obtain ⟨s₁, pt, ht₁, hch, hwalk, rfl⟩ :=
    h.tree.pgtableMap hclosed (fun _ hP => hP) hclosed hpath (by decide) (by decide) hr
  obtain ⟨htree, hleaf, hself, hwalks⟩ := ht₁.leaf hclosed (fun _ hP => hP) hpath hwalk
    (not_tablePath_leaf vaddr (tableIndex vaddr 12)) (paddr / PAGE_SIZE * PAGE_SIZE ||| KERNEL_FLAGS)
  obtain ⟨used, hused, -, hreached⟩ := hch.used
  refine ⟨htree, fun w hw => ?_, fun Q j hQ => ?_, fun t ⟨P, hP, hPt⟩ => ?_, fun f hf => ?_⟩
  · by_cases hpage : w / PAGE_SIZE = vaddr / PAGE_SIZE
    · rw [leafOf_page _ root hpage, hpage, Function.update_self]
      exact hself
    · rw [Function.update_of_ne hpage, ← h.leaf w hw, leafOf, leafOf]
      rw [hleaf _ _ (tablePath_tablePath w), hch.cell _ _ (tablePath_tablePath w) (leaf_not_mem_pathCells w vaddr _)]
      intro heq
      obtain ⟨hindices, hlast⟩ := Prod.mk.inj heq
      exact hpage (page_of_indices hv hw hindices hlast)
  · by_cases hcell : (Q, j) = (tablePath vaddr, tableIndex vaddr 12)
    · obtain ⟨rfl, rfl⟩ := Prod.mk.inj hcell
      rw [hself]
      exact huge_kernel (Nat.mul_mod_left _ _)
    · rw [hleaf Q j hQ hcell]
      obtain hsame | ⟨a, ha, hnew⟩ := hch.entries Q j hQ
      · rw [hsame]
        exact h.plain Q j hQ
      · rw [hnew]
        exact huge_kernel ha
  · have hbefore : Reached TablePath s₁ root t := ⟨P, hP, by rw [← hwalks P hP]; exact hPt⟩
    obtain hold | hnew := (hreached t).mp hbefore
    · exact h.tables t hold
    · apply h.pool t
      rw [hused]
      exact List.mem_append_left _ hnew
  · apply h.pool f
    rw [hused]
    exact List.mem_append_right _ hf

/-- **`pgtable_maprange`** for the kernel leads a stretch of pages to a stretch of frames. -/
theorem Translates.maprange (n : ℕ) (h : Translates frames s root T) (hhigh : HHDM_OFFSET ≤ vaddr)
    (hvirtual : vaddr + n * PAGE_SIZE < 2 ^ 64) (hphysical : paddr + n * PAGE_SIZE < 2 ^ 64)
    (hr : s.pgtableMaprange root vaddr paddr n KERNEL_FLAGS = some s') :
    Translates frames s' root (rangeMap T (vaddr / PAGE_SIZE) (paddr / PAGE_SIZE) n) := by
  induction n generalizing s T vaddr paddr with
  | zero =>
    rw [pgtableMaprange] at hr
    obtain rfl := Option.some.inj hr
    rw [rangeMap_zero]
    exact h
  | succ n ih =>
    rw [pgtableMaprange] at hr
    rw [PAGE_SIZE] at hvirtual hphysical
    have hnextV : (vaddr + PAGE_SIZE) % 2 ^ 64 = vaddr + PAGE_SIZE := Nat.mod_eq_of_lt (by rw [PAGE_SIZE]; omega)
    have hnextP : (paddr + PAGE_SIZE) % 2 ^ 64 = paddr + PAGE_SIZE := Nat.mod_eq_of_lt (by rw [PAGE_SIZE]; omega)
    cases hmap : s.pgtableMap root vaddr paddr KERNEL_FLAGS with
    | none =>
      rw [hmap] at hr
      cases hr
    | some s₁ =>
      rw [hmap] at hr
      simp only [hnextV, hnextP] at hr
      have hone := h.map (.inr ⟨hhigh, by omega⟩) hmap
      have hrest := ih hone (by omega) (by rw [PAGE_SIZE]; omega) (by rw [PAGE_SIZE]; omega) hr
      have hpage : ∀ x, (x + PAGE_SIZE) / PAGE_SIZE = x / PAGE_SIZE + 1 := fun x => Nat.add_div_right x (by decide)
      rw [hpage, hpage, rangeMap_succ] at hrest
      exact hrest

/-- The first table translates nothing. -/
theorem Translates.alloc (hframes : ∀ f ∈ s.pool, IsFrame f) (hnodup : s.pool.Nodup)
    (hr : s.pgtableAllocTable = some (root, s')) : Translates s.pool s' root fun _ => none := by
  obtain ⟨hp, htree, honly, hcell⟩ := pgtableAllocTable_spec hframes hnodup hr
  refine ⟨htree, fun v _ => hcell _ _, fun Q j _ => ?_, fun t ht => ?_, fun f hf => ?_⟩
  · rw [hcell]
    decide
  · rw [honly t ht, hp]
    exact List.mem_cons_self
  · rw [hp]
    exact List.mem_cons_of_mem root hf

/-- What `pgtable_kva` answers, from the map. -/
theorem Translates.kva (h : Translates frames s root T) {v : ℕ} (hv : Canonical v)
    (hsmall : ∀ q f, T q = some f → f * PAGE_SIZE < 2 ^ 47) :
    s.pgtableKva root v = (T (v / PAGE_SIZE)).map fun f => HHDM_OFFSET + f * PAGE_SIZE + v % PAGE_SIZE := by
  rw [pgtableKva_eq, h.leaf v hv]
  cases hT : T (v / PAGE_SIZE) with
  | none => exact kvaOfEntry_zero v
  | some f =>
    have hkva := Space.kvaOfEntry_entry (v := v) (hsmall _ f hT)
      (show KERNEL_FLAGS < PAGE_SIZE by decide) (show present KERNEL_FLAGS = true by decide)
    rw [Nat.mul_div_cancel f (by decide)] at hkva
    exact hkva

end PageMem

/-! ### What `vmm_init` maps -/

namespace KernelLayout

open PageMem

variable {k : KernelLayout} {s s' : PageMem} {root : ℕ} {frames : List ℕ} {T : ℕ → Option ℕ} {D : ℕ → Prop}

/-- The addresses of the kernel image, in whole pages. -/
def InImage (k : KernelLayout) (v : ℕ) : Prop := alignDown k.kernelStart ≤ v ∧ v < alignUp k.kernelEnd

/-- The physical addresses of the framebuffer and of the memory map, in whole pages. -/
def InDirectMap (k : KernelLayout) (x : ℕ) : Prop :=
  (k.fbBase / PAGE_SIZE * PAGE_SIZE ≤ x ∧ x < k.fbBase / PAGE_SIZE * PAGE_SIZE + k.framebufferLength) ∨
    ∃ e ∈ k.mmap, alignDown e.base ≤ x ∧ x < alignUp e.stop

instance (k : KernelLayout) (v : ℕ) : Decidable (k.InImage v) := inferInstanceAs (Decidable (_ ∧ _))

instance (k : KernelLayout) (x : ℕ) : Decidable (k.InDirectMap x) := inferInstanceAs (Decidable (_ ∨ _))

/-- The kernel is linked for the upper half, lies at the same place in a page physically, and ends in the addresses of
the machine; and what goes to the direct map does not reach up to the kernel. -/
structure Valid (k : KernelLayout) : Prop where
  high : HHDM_OFFSET ≤ k.kernelStart
  order : k.kernelStart ≤ k.kernelEnd
  fits : k.kernelEnd + PAGE_SIZE ≤ 2 ^ 64
  place : k.kernelPhysBase % PAGE_SIZE = k.kernelStart % PAGE_SIZE
  image : k.kernelPhysBase + (k.kernelEnd - k.kernelStart) + PAGE_SIZE ≤ 2 ^ 47
  screen : HHDM_OFFSET + (k.fbBase + k.framebufferLength) ≤ alignDown k.kernelStart
  regions : ∀ e ∈ k.mmap, HHDM_OFFSET + (e.base + e.len) ≤ alignDown k.kernelStart

/-- The first page of the kernel image. -/
def firstPage (k : KernelLayout) : ℕ := k.kernelStart / PAGE_SIZE

/-- The page behind the kernel image. -/
def lastPage (k : KernelLayout) : ℕ := alignUp k.kernelEnd / PAGE_SIZE

/-- The first page of the direct map. -/
def HHDM_PAGE : ℕ := HHDM_OFFSET / PAGE_SIZE

/-- The map leads the kernel image to its frames, the pages of the direct map for `D` to `D`, and no other page. -/
structure KernelMap (k : KernelLayout) (D : ℕ → Prop) (T : ℕ → Option ℕ) : Prop where
  image : ∀ q, k.firstPage ≤ q → q < k.lastPage → T q = some (k.kernelPhysBase / PAGE_SIZE + (q - k.firstPage))
  direct : ∀ p, D p → HHDM_PAGE + p < k.firstPage ∧ T (HHDM_PAGE + p) = some p
  other : ∀ q f, T q = some f → k.firstPage ≤ q ∧ q < k.lastPage ∨ ∃ p, D p ∧ q = HHDM_PAGE + p

theorem alignDown_eq (x : ℕ) : alignDown x = x / PAGE_SIZE * PAGE_SIZE := by
  rw [alignDown, PAGE_SIZE]
  omega

/-- A range of the direct map. -/
theorem KernelMap.range {p n : ℕ} (h : k.KernelMap D T) (hbelow : HHDM_PAGE + (p + n) ≤ k.firstPage) :
    k.KernelMap (fun x => D x ∨ p ≤ x ∧ x < p + n) (rangeMap T (HHDM_PAGE + p) p n) := by
  refine ⟨fun q hfirst hlast => ?_, fun x hx => ?_, fun q f hq => ?_⟩
  · rw [rangeMap, if_neg (by omega)]
    exact h.image q hfirst hlast
  · by_cases hin : p ≤ x ∧ x < p + n
    · refine ⟨by omega, ?_⟩
      rw [rangeMap, if_pos (by omega)]
      congr 1
      omega
    · obtain ⟨hlow, hT⟩ := h.direct x (hx.resolve_right hin)
      refine ⟨hlow, ?_⟩
      rw [rangeMap, if_neg (by omega)]
      exact hT
  · by_cases hin : HHDM_PAGE + p ≤ q ∧ q < HHDM_PAGE + p + n
    · exact .inr ⟨q - HHDM_PAGE, .inr (by omega), by omega⟩
    · rw [rangeMap, if_neg hin] at hq
      obtain himage | ⟨x, hx, hqx⟩ := h.other q f hq
      · exact .inl himage
      · exact .inr ⟨x, .inl hx, hqx⟩

/-- The tables are made of the given frames, and map the kernel image and the frames `D`. -/
def Maps (k : KernelLayout) (frames : List ℕ) (s : PageMem) (root : ℕ) (D : ℕ → Prop) : Prop :=
  ∃ T, Translates frames s root T ∧ k.KernelMap D T

theorem Valid.pages (hk : k.Valid) : k.firstPage ≤ k.lastPage ∧ k.lastPage * PAGE_SIZE < 2 ^ 64 ∧
    alignDown k.kernelStart = k.firstPage * PAGE_SIZE ∧ alignUp k.kernelEnd = k.lastPage * PAGE_SIZE ∧
      HHDM_PAGE ≤ k.firstPage := by
  have hhigh := hk.high
  have horder := hk.order
  have hfits := hk.fits
  rw [alignDown_eq, lastPage, firstPage, alignUp_eq, HHDM_PAGE]
  rw [PAGE_SIZE] at *
  rw [HHDM_OFFSET] at *
  omega

/-- What goes to the direct map stays in the addresses of the machine, and below the kernel image. -/
theorem Valid.room {x : ℕ} (hk : k.Valid) (hx : HHDM_OFFSET + x ≤ alignDown k.kernelStart) :
    x + PAGE_SIZE ≤ 2 ^ 47 ∧ alignUp x = (x + PAGE_SIZE - 1) / PAGE_SIZE * PAGE_SIZE ∧
      HHDM_PAGE + alignUp x / PAGE_SIZE ≤ k.firstPage := by
  have horder := hk.order
  have hfits := hk.fits
  rw [alignDown_eq] at hx
  rw [alignUp_eq, HHDM_PAGE, firstPage]
  rw [HHDM_OFFSET] at hx ⊢
  rw [PAGE_SIZE] at hx hfits ⊢
  omega

/-- The first range. -/
theorem mapKernel_spec (hk : k.Valid) (h : Translates frames s root fun _ => none)
    (hr : k.mapKernel root s = some s') : k.Maps frames s' root fun _ => False := by
  obtain ⟨horder, htop, hdown, hup, hlow⟩ := hk.pages
  have hplace := hk.place
  have himage := hk.image
  have hstart := hk.order
  have hhigh := hk.high
  have hfits := hk.fits
  rw [mapKernel] at hr
  have hpages : (alignUp k.kernelEnd + 2 ^ 64 - alignDown k.kernelStart) % 2 ^ 64 / PAGE_SIZE =
      k.lastPage - k.firstPage := by
    rw [hdown, hup]
    rw [PAGE_SIZE] at *
    omega
  have hpstart : (k.kernelPhysBase + 2 ^ 64 - (k.kernelStart - alignDown k.kernelStart)) % 2 ^ 64 =
      k.kernelPhysBase / PAGE_SIZE * PAGE_SIZE := by
    rw [hdown, firstPage]
    rw [PAGE_SIZE] at *
    omega
  simp only [hpages, hpstart] at hr
  rw [hdown] at hr
  have hvirtual : HHDM_OFFSET ≤ k.firstPage * PAGE_SIZE ∧
      k.firstPage * PAGE_SIZE + (k.lastPage - k.firstPage) * PAGE_SIZE < 2 ^ 64 := by
    rw [HHDM_PAGE, HHDM_OFFSET] at hlow
    rw [HHDM_OFFSET]
    rw [PAGE_SIZE] at hlow htop ⊢
    omega
  have hphysical : k.kernelPhysBase / PAGE_SIZE * PAGE_SIZE + (k.lastPage - k.firstPage) * PAGE_SIZE < 2 ^ 64 := by
    rw [firstPage, lastPage, alignUp_eq]
    rw [PAGE_SIZE] at hfits himage ⊢
    omega
  have hmap := h.maprange (k.lastPage - k.firstPage) hvirtual.1 hvirtual.2 hphysical hr
  rw [Nat.mul_div_cancel _ (by decide), Nat.mul_div_cancel _ (by decide)] at hmap
  refine ⟨_, hmap, fun q hfirst hlast => if_pos (by omega), fun _ hfalse => hfalse.elim, fun q f hq => ?_⟩
  rw [rangeMap] at hq
  split at hq
  · exact .inl (by omega)
  · cases hq

/-- A further range, in the direct map. -/
theorem Maps.range {n vaddr paddr : ℕ} (h : k.Maps frames s root D) (hk : k.Valid)
    (hvaddr : vaddr = paddr + HHDM_OFFSET) (hbelow : HHDM_PAGE + (paddr / PAGE_SIZE + n) ≤ k.firstPage)
    (hr : s.pgtableMaprange root vaddr paddr n KERNEL_FLAGS = some s') :
    k.Maps frames s' root fun x => D x ∨ paddr / PAGE_SIZE ≤ x ∧ x < paddr / PAGE_SIZE + n := by
  obtain ⟨T, htrans, hmap⟩ := h
  have horder := hk.order
  have hfits := hk.fits
  rw [firstPage] at hbelow
  have hpage : vaddr / PAGE_SIZE = HHDM_PAGE + paddr / PAGE_SIZE := by
    rw [hvaddr, HHDM_PAGE, HHDM_OFFSET, PAGE_SIZE]
    omega
  refine ⟨_, htrans.maprange n ?_ ?_ ?_ hr, ?_⟩
  · omega
  · rw [HHDM_PAGE] at hbelow
    rw [HHDM_OFFSET] at *
    rw [PAGE_SIZE] at *
    omega
  · rw [HHDM_PAGE] at hbelow
    rw [HHDM_OFFSET] at *
    rw [PAGE_SIZE] at *
    omega
  · rw [hpage]
    exact hmap.range hbelow

/-- The framebuffer is a whole number of pages. -/
theorem framebufferLength_pages (k : KernelLayout) :
    k.framebufferLength = k.framebufferLength / PAGE_SIZE * PAGE_SIZE := by
  rw [framebufferLength]
  split
  · rfl
  · rw [alignUp_eq, PAGE_SIZE]
    omega

/-- The second range. -/
theorem mapFramebuffer_spec (hk : k.Valid) (h : k.Maps frames s root fun _ => False)
    (hr : k.mapFramebuffer root s = some s') :
    k.Maps frames s' root fun x =>
      k.fbBase / PAGE_SIZE ≤ x ∧ x < k.fbBase / PAGE_SIZE + k.framebufferLength / PAGE_SIZE := by
  rw [mapFramebuffer] at hr
  by_cases hnone : k.framebufferLength = 0
  · rw [if_neg (not_not.mpr hnone)] at hr
    obtain rfl := Option.some.inj hr
    obtain ⟨T, htrans, hmap⟩ := h
    refine ⟨T, htrans, hmap.image, fun x hx => ?_, fun q f hq => (hmap.other q f hq).imp_right ?_⟩
    · rw [hnone, Nat.zero_div] at hx
      omega
    · rintro ⟨x, hx, -⟩
      exact hx.elim
  · rw [if_pos hnone] at hr
    have hfb : ¬(k.fbBase = 0 ∨ k.fbFormat = BI_FB_NONE) := by
      intro hno
      exact hnone (by rw [framebufferLength, if_pos hno])
    obtain ⟨hsmall, hup, hbelow⟩ := hk.room hk.screen
    have hpages := k.framebufferLength_pages
    have hbase : k.framebuffer = k.fbBase + HHDM_OFFSET := by
      rw [framebuffer, if_neg hfb, HHDM_OFFSET]
      rw [PAGE_SIZE] at hsmall
      omega
    have hpaddr : (k.framebuffer + 2 ^ 64 - HHDM_OFFSET) % 2 ^ 64 = k.fbBase := by
      rw [hbase, HHDM_OFFSET]
      rw [PAGE_SIZE] at hsmall
      omega
    have hin : HHDM_PAGE + (k.fbBase / PAGE_SIZE + k.framebufferLength / PAGE_SIZE) ≤ k.firstPage := by
      rw [hup] at hbelow
      rw [PAGE_SIZE] at hbelow hpages ⊢
      omega
    rw [hpaddr] at hr
    obtain ⟨T, htrans, hT⟩ := h.range hk hbase hin hr
    refine ⟨T, htrans, hT.image, fun x hx => hT.direct x (.inr hx), fun q f hq => (hT.other q f hq).imp_right ?_⟩
    rintro ⟨x, hx, hqx⟩
    exact ⟨x, hx.resolve_left id, hqx⟩

/-- The frames of an entry of the memory map, whole pages. -/
def HasFrame (e : MmapEntry) (x : ℕ) : Prop := alignDown e.base / PAGE_SIZE ≤ x ∧ x < alignUp e.stop / PAGE_SIZE

/-- One round of the third range. -/
theorem mapRegion_spec (hk : k.Valid) {e : MmapEntry} (h : k.Maps frames s root D)
    (he : HHDM_OFFSET + (e.base + e.len) ≤ alignDown k.kernelStart) (hr : mapRegion root s e = some s') :
    k.Maps frames s' root fun x => D x ∨ HasFrame e x := by
  obtain ⟨hsmall, hup, hbelow⟩ := hk.room he
  have hstop : e.stop = e.base + e.len := by
    rw [MmapEntry.stop]
    rw [PAGE_SIZE] at hsmall
    omega
  have hdown := alignDown_eq e.base
  have hvaddr : (alignDown e.base + HHDM_OFFSET) % 2 ^ 64 = alignDown e.base + HHDM_OFFSET := by
    rw [hdown, HHDM_OFFSET]
    rw [PAGE_SIZE] at hsmall ⊢
    omega
  have hpages : alignDown e.base / PAGE_SIZE + (alignUp (e.base + e.len) + 2 ^ 64 - alignDown e.base) % 2 ^ 64 / PAGE_SIZE =
      max (alignDown e.base / PAGE_SIZE) (alignUp (e.base + e.len) / PAGE_SIZE) := by
    rw [hdown, hup]
    rw [PAGE_SIZE] at hsmall ⊢
    omega
  rw [mapRegion, hstop] at hr
  simp only [hvaddr] at hr
  have hmap := h.range hk rfl (by
    rw [hpages]
    rw [hup] at hbelow ⊢
    rw [hdown]
    rw [PAGE_SIZE] at hbelow ⊢
    omega) hr
  rw [hpages] at hmap
  have hsame : (fun x => D x ∨ alignDown e.base / PAGE_SIZE ≤ x ∧
      x < max (alignDown e.base / PAGE_SIZE) (alignUp (e.base + e.len) / PAGE_SIZE)) = fun x => D x ∨ HasFrame e x := by
    funext x
    rw [HasFrame, hstop]
    have hiff : (alignDown e.base / PAGE_SIZE ≤ x ∧
        x < max (alignDown e.base / PAGE_SIZE) (alignUp (e.base + e.len) / PAGE_SIZE)) ↔
        alignDown e.base / PAGE_SIZE ≤ x ∧ x < alignUp (e.base + e.len) / PAGE_SIZE := by omega
    rw [propext hiff]
  rw [← hsame]
  exact hmap

/-- The third range: all entries of the memory map. -/
theorem mapRegions_spec (hk : k.Valid) {es : List MmapEntry} (h : k.Maps frames s root D)
    (hes : ∀ e ∈ es, HHDM_OFFSET + (e.base + e.len) ≤ alignDown k.kernelStart)
    (hr : es.foldlM (mapRegion root) s = some s') :
    k.Maps frames s' root fun x => D x ∨ ∃ e ∈ es, HasFrame e x := by
  induction es generalizing s D with
  | nil =>
    obtain rfl := Option.some.inj hr
    simpa using h
  | cons e es ih =>
    rw [List.foldlM_cons] at hr
    obtain ⟨s₁, hone, hrest⟩ := Option.bind_eq_some_iff.mp hr
    have hstep := mapRegion_spec hk h (hes e List.mem_cons_self) hone
    have hall := ih hstep (fun e' he' => hes e' (List.mem_cons_of_mem e he')) hrest
    simpa only [List.mem_cons, exists_eq_or_imp, or_assoc] using hall

/-- The frames of the direct map. -/
def DirectFrame (k : KernelLayout) (x : ℕ) : Prop :=
  (k.fbBase / PAGE_SIZE ≤ x ∧ x < k.fbBase / PAGE_SIZE + k.framebufferLength / PAGE_SIZE) ∨
    ∃ e ∈ k.mmap, HasFrame e x

/-- **`vmm_init`** makes tables for the kernel image and the direct map. -/
theorem vmmInit_maps (hk : k.Valid) (hframes : ∀ f ∈ s.pool, IsFrame f) (hnodup : s.pool.Nodup)
    (hr : k.vmmInit s = some (root, s')) : k.Maps s.pool s' root k.DirectFrame := by
  rw [vmmInit] at hr
  obtain ⟨⟨pml4, s₁⟩, halloc, hr⟩ := Option.bind_eq_some_iff.mp hr
  obtain ⟨s₂, hkernel, hr⟩ := Option.bind_eq_some_iff.mp hr
  obtain ⟨s₃, hscreen, hr⟩ := Option.bind_eq_some_iff.mp hr
  obtain ⟨s₄, hregions, hr⟩ := Option.bind_eq_some_iff.mp hr
  obtain ⟨rfl, rfl⟩ := Prod.mk.inj (Option.some.inj hr)
  have hempty := Translates.alloc hframes hnodup halloc
  exact mapRegions_spec hk (mapFramebuffer_spec hk (mapKernel_spec hk hempty hkernel) hscreen) hk.regions hregions

/-- A frame is one of the direct map if its first address is. -/
theorem inDirectMap_iff (k : KernelLayout) (x : ℕ) : k.InDirectMap x ↔ k.DirectFrame (x / PAGE_SIZE) := by
  have hpages := k.framebufferLength_pages
  have hup : ∀ y, x / PAGE_SIZE < alignUp y / PAGE_SIZE ↔ x < alignUp y := by
    intro y
    rw [alignUp_eq, PAGE_SIZE]
    omega
  have hdown : ∀ y, alignDown y / PAGE_SIZE ≤ x / PAGE_SIZE ↔ alignDown y ≤ x := by
    intro y
    rw [alignDown_eq, PAGE_SIZE]
    omega
  have hscreen : (k.fbBase / PAGE_SIZE * PAGE_SIZE ≤ x ∧
      x < k.fbBase / PAGE_SIZE * PAGE_SIZE + k.framebufferLength) ↔
      k.fbBase / PAGE_SIZE ≤ x / PAGE_SIZE ∧
        x / PAGE_SIZE < k.fbBase / PAGE_SIZE + k.framebufferLength / PAGE_SIZE := by
    rw [hpages]
    rw [PAGE_SIZE]
    omega
  simp only [InDirectMap, DirectFrame, HasFrame, hup, hdown, hscreen]

/-- The pages of the image, for its addresses. -/
theorem Valid.inImage_iff (hk : k.Valid) (v : ℕ) :
    k.InImage v ↔ k.firstPage ≤ v / PAGE_SIZE ∧ v / PAGE_SIZE < k.lastPage := by
  obtain ⟨-, -, hdown, hup, -⟩ := hk.pages
  rw [InImage, hdown, hup, PAGE_SIZE]
  omega

/-- The frames of the map are physical memory. -/
theorem KernelMap.small (h : k.KernelMap D T) (hk : k.Valid) (q f : ℕ) (hq : T q = some f) :
    f * PAGE_SIZE < 2 ^ 47 := by
  have horder := hk.order
  have hfits := hk.fits
  obtain ⟨hfirst, hlast⟩ | ⟨p, hp, rfl⟩ := h.other q f hq
  · have himage := hk.image
    obtain rfl := Option.some.inj ((h.image q hfirst hlast).symm.trans hq)
    rw [lastPage, alignUp_eq] at hlast
    rw [firstPage] at hfirst ⊢
    rw [PAGE_SIZE] at *
    omega
  · obtain ⟨hlow, hT⟩ := h.direct p hp
    obtain rfl := Option.some.inj (hT.symm.trans hq)
    rw [HHDM_PAGE, HHDM_OFFSET, firstPage] at hlow
    rw [PAGE_SIZE] at *
    omega

/-- The direct map ends below the image. -/
theorem Maps.direct_below {x : ℕ} (h : k.Maps frames s root k.DirectFrame) (hk : k.Valid) (hin : k.InDirectMap x) :
    HHDM_OFFSET + x < 2 ^ 64 ∧ ¬k.InImage (HHDM_OFFSET + x) := by
  obtain ⟨T, -, hmap⟩ := h
  obtain ⟨hlow, -⟩ := hmap.direct _ ((k.inDirectMap_iff x).mp hin)
  have horder := hk.order
  have hfits := hk.fits
  rw [hk.inImage_iff]
  rw [HHDM_PAGE, firstPage] at hlow
  rw [firstPage]
  rw [HHDM_OFFSET] at hlow ⊢
  rw [PAGE_SIZE] at hlow hfits ⊢
  omega

/-- Where the tables of the kernel lead an address. -/
theorem Maps.kva (h : k.Maps frames s root k.DirectFrame) (hk : k.Valid) {v : ℕ} (hv : Canonical v) :
    s.pgtableKva root v =
      if k.InImage v then some (HHDM_OFFSET + (k.kernelPhysBase + v - k.kernelStart))
      else if HHDM_OFFSET ≤ v ∧ k.InDirectMap (v - HHDM_OFFSET) then some v
      else none := by
  obtain ⟨T, htrans, hmap⟩ := h
  have hkva := htrans.kva hv (hmap.small hk)
  have hpage : HHDM_PAGE * PAGE_SIZE = HHDM_OFFSET := by decide
  by_cases himage : k.InImage v
  · obtain ⟨hfirst, hlast⟩ := (hk.inImage_iff v).mp himage
    have hplace := hk.place
    rw [hkva, if_pos himage, hmap.image _ hfirst hlast, Option.map_some]
    apply congrArg some
    rw [firstPage] at hfirst ⊢
    rw [PAGE_SIZE] at hfirst hplace ⊢
    omega
  · rw [if_neg himage, hkva]
    by_cases hdirect : HHDM_OFFSET ≤ v ∧ k.InDirectMap (v - HHDM_OFFSET)
    · obtain ⟨hhigh, hin⟩ := hdirect
      have hframe := (k.inDirectMap_iff _).mp hin
      have hnumber : HHDM_PAGE + (v - HHDM_OFFSET) / PAGE_SIZE = v / PAGE_SIZE := by
        rw [← hpage, PAGE_SIZE] at hhigh ⊢
        omega
      obtain ⟨-, hT⟩ := hmap.direct _ hframe
      rw [hnumber] at hT
      rw [if_pos ⟨hhigh, hin⟩, hT, Option.map_some]
      apply congrArg some
      rw [← hpage, PAGE_SIZE] at hhigh ⊢
      omega
    · rw [if_neg hdirect]
      cases hT : T (v / PAGE_SIZE) with
      | none => rfl
      | some f =>
        exfalso
        obtain hin | ⟨p, hp, hnumber⟩ := hmap.other _ f hT
        · exact himage ((hk.inImage_iff v).mpr hin)
        · apply hdirect
          have hplace : HHDM_OFFSET ≤ v ∧ (v - HHDM_OFFSET) / PAGE_SIZE = p := by
            rw [← hpage]
            rw [PAGE_SIZE] at hnumber ⊢
            omega
          refine ⟨hplace.1, (k.inDirectMap_iff _).mpr ?_⟩
          rw [hplace.2]
          exact hp

/-- **The address space of the kernel.**  The tables of `vmm_init` lead the kernel image to where the loader has put it,
the framebuffer and the memory map to the direct map, and no other address anywhere; and where the frames for tables come
from the memory map, every table is found in the new address space too. -/
theorem vmmInit_translation {pml4 : ℕ} (hk : k.Valid) (hframes : ∀ f ∈ s.pool, IsFrame f) (hnodup : s.pool.Nodup)
    (hr : k.vmmInit s = some (pml4, s')) :
    (∀ v, Canonical v → s'.pgtableKva pml4 v =
      if k.InImage v then some (HHDM_OFFSET + (k.kernelPhysBase + v - k.kernelStart))
      else if HHDM_OFFSET ≤ v ∧ k.InDirectMap (v - HHDM_OFFSET) then some v
      else none) ∧
    ((∀ f ∈ s.pool, k.InDirectMap (f - HHDM_OFFSET)) →
      ∀ t, Reached TablePath s' pml4 t → s'.pgtableKva pml4 t = some t) := by
  have hmaps := vmmInit_maps hk hframes hnodup hr
  refine ⟨fun v hv => hmaps.kva hk hv, fun hpool t ht => ?_⟩
  have hmem : t ∈ s.pool := by
    obtain ⟨T, htrans, -⟩ := hmaps
    exact htrans.tables t ht
  have hframe := hframes t hmem
  have hin := hpool t hmem
  have hoff := (hmaps.direct_below hk hin).2
  rw [Nat.add_sub_cancel' hframe.mapped] at hoff
  rw [hmaps.kva hk (.inr ⟨hframe.mapped, hframe.fits⟩), if_neg hoff, if_pos ⟨hframe.mapped, hin⟩]

/-- A kernel of two pages, in a machine with seven pages of memory and no screen. -/
def sevenPages : KernelLayout where
  kernelStart := 0xFFFFFFFF80000000
  kernelEnd := 0xFFFFFFFF80001800
  kernelPhysBase := 0x200000
  fbBase := 0
  fbSize := 0
  fbFormat := BI_FB_NONE
  mmap := [⟨0x1000, 0x7000, .usable⟩]

/-- Its memory, free. -/
def sevenFrames : PageMem :=
  ⟨fun _ _ => 0, [HHDM_OFFSET + 0x1000, HHDM_OFFSET + 0x2000, HHDM_OFFSET + 0x3000, HHDM_OFFSET + 0x4000,
    HHDM_OFFSET + 0x5000, HHDM_OFFSET + 0x6000, HHDM_OFFSET + 0x7000]⟩

theorem sevenPages_valid : sevenPages.Valid := by
  refine ⟨by decide, by decide, by decide, by decide, by decide, by decide, fun e he => ?_⟩
  obtain rfl := List.mem_singleton.mp he
  decide

theorem sevenFrames_isFrame : ∀ f ∈ sevenFrames.pool, IsFrame f := by
  intro f hf
  simp only [sevenFrames, List.mem_cons, List.not_mem_nil, or_false] at hf
  obtain rfl | rfl | rfl | rfl | rfl | rfl | rfl := hf
  all_goals exact ⟨by decide, by decide, by decide⟩

set_option maxRecDepth 4000 in
theorem vmmInit_sevenPages : (sevenPages.vmmInit sevenFrames).isSome = true := by decide

theorem vmmInit_translation_sevenPages : ∃ pml4 s', sevenPages.vmmInit sevenFrames = some (pml4, s') ∧
    s'.pgtableKva pml4 0xFFFFFFFF80001234 = some (HHDM_OFFSET + 0x201234) ∧
      s'.pgtableKva pml4 (HHDM_OFFSET + 0x2345) = some (HHDM_OFFSET + 0x2345) ∧ s'.pgtableKva pml4 0x2345 = none := by
  obtain ⟨⟨pml4, s'⟩, hr⟩ := Option.isSome_iff_exists.mp vmmInit_sevenPages
  obtain ⟨hkva, -⟩ := vmmInit_translation sevenPages_valid sevenFrames_isFrame (by decide) hr
  refine ⟨pml4, s', hr, ?_, ?_, ?_⟩
  · rw [hkva _ (.inr (by decide))]
    decide
  · rw [hkva _ (.inr (by decide))]
    decide
  · rw [hkva _ (.inl (by decide))]
    decide

end KernelLayout

end LizardOs.Mm
