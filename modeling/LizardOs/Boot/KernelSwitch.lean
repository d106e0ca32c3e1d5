import LizardOs.Boot.BootTables
import LizardOs.Mm.KernelSpace

/-!
# The switch to the kernel's own tables

The kernel starts on the tables of `head.S`, and `vmm_init` ends with a load of `cr3` for its own.  The code that does
this, its stack and everything it has a pointer to must lie behind the same addresses before and after.  To the processor
a table is 512 words of physical memory, which it reads in place of the direct map.
-/

namespace LizardOs.Boot

open LizardOs.Lib LizardOs.Mm

/-! ### The tables of the kernel in physical memory -/

/-- The words of the tables by physical address. -/
def phys (s : PageMem) (a : ℕ) : ℕ := s.entry (a / PAGE_SIZE * PAGE_SIZE + HHDM_OFFSET) (a % PAGE_SIZE / 8)

section

variable {s : PageMem} {root t e i v : ℕ} {frames : List ℕ} {T : ℕ → Option ℕ}

/-- An entry of a table. -/
theorem phys_entry (ht : IsFrame t) (hi : i < 512) : phys s (t - HHDM_OFFSET + 8 * i) = s.entry t i := by
  have hmapped := ht.mapped
  have haligned := ht.aligned
  rw [HHDM_OFFSET] at *
  rw [PAGE_SIZE] at haligned
  have htable : (t - 0xFFFF800000000000 + 8 * i) / PAGE_SIZE * PAGE_SIZE + HHDM_OFFSET = t := by
    rw [PAGE_SIZE, HHDM_OFFSET]
    omega
  have hindex : (t - 0xFFFF800000000000 + 8 * i) % PAGE_SIZE / 8 = i := by
    rw [PAGE_SIZE]
    omega
  rw [phys, htable, hindex]

/-- The processor reads a table where the direct map has it. -/
theorem pteAddr_tableOf (ht : IsFrame (tableOf e)) : pteAddr e = tableOf e - HHDM_OFFSET := by
  have hmapped := ht.mapped
  have haligned := ht.aligned
  have hfits := ht.fits
  rw [tableOf, frameOf, HHDM_OFFSET, PAGE_SIZE] at *
  rw [pteAddr]
  omega

theorem pteAddr_root (ht : IsFrame root) : pteAddr (root - HHDM_OFFSET) = root - HHDM_OFFSET := by
  have hmapped := ht.mapped
  have haligned := ht.aligned
  have hfits := ht.fits
  rw [HHDM_OFFSET, PAGE_SIZE] at *
  rw [pteAddr]
  omega

theorem pteAddr_page_entry {f : ℕ} (hf : f * PAGE_SIZE < 2 ^ 47) :
    pteAddr (f * PAGE_SIZE ||| KERNEL_FLAGS) = f * PAGE_SIZE := by
  rw [entry_eq (Nat.mul_mod_left _ _) (by decide), pteAddr]
  rw [PAGE_SIZE] at *
  have hflags : KERNEL_FLAGS = 3 := by decide
  omega

/-- One level down: what a present entry says to the processor. -/
theorem descend {P : List ℕ} (h : PageMem.Translates frames s root T) (hframes : ∀ f ∈ frames, IsFrame f)
    (hP : PageMem.TablePath P) (hPi : PageMem.TablePath (P ++ [i])) (hwalk : walk nextTable s.entry P root = some t)
    (hp : present (s.entry t i) = true) :
    walk nextTable s.entry (P ++ [i]) root = some (tableOf (s.entry t i)) ∧ IsFrame (tableOf (s.entry t i)) ∧
      huge (s.entry t i) = false ∧ pteAddr (s.entry t i) = tableOf (s.entry t i) - HHDM_OFFSET := by
  have hnext : walk nextTable s.entry (P ++ [i]) root = some (tableOf (s.entry t i)) := by
    rw [walk_concat, hwalk]
    exact nextTable_of_present hp
  have hframe : IsFrame (tableOf (s.entry t i)) := hframes _ (h.tables _ ⟨P ++ [i], hPi, hnext⟩)
  have hplain := h.plain P i hP
  rw [PageMem.cellAt_of_walk hwalk] at hplain
  exact ⟨hnext, hframe, hplain, pteAddr_tableOf hframe⟩

/-- A page whose entry is 0 is not mapped. -/
theorem entryOf_eq_zero {o : Option ℕ} (h : entryOf o = 0) : o = none := by
  cases o with
  | none => rfl
  | some f =>
    exfalso
    have hp : present (f * PAGE_SIZE ||| KERNEL_FLAGS) = true :=
      present_entry (Nat.mul_mod_left _ _) (by decide) (by decide)
    rw [entryOf] at h
    rw [h] at hp
    revert hp
    decide

/-- A path that ends on the way does not get further. -/
theorem walk_none {P : List ℕ} (Q : List ℕ) (hwalk : walk nextTable s.entry P root = some t)
    (hp : ¬present (s.entry t i) = true) : walk nextTable s.entry (P ++ i :: Q) root = none := by
  rw [walk_append, hwalk]
  show (nextTable (s.entry t i)).bind _ = none
  rw [nextTable, if_neg hp]
  rfl

/-- **The processor reads the tables of the kernel as `pgtable_kva` does.** -/
theorem translate_phys (h : PageMem.Translates frames s root T) (hframes : ∀ f ∈ frames, IsFrame f)
    (hv : PageMem.Canonical v) (hsmall : ∀ q f, T q = some f → f * PAGE_SIZE < 2 ^ 47) :
    translate (phys s) (root - HHDM_OFFSET) v = (T (v / PAGE_SIZE)).map fun f => f * PAGE_SIZE + v % PAGE_SIZE := by
  have hroot : IsFrame root := hframes root (h.tables root ⟨[], follows_nil _ 3, rfl⟩)
  have hword : ¬(2 ^ 47 ≤ v ∧ v < 2 ^ 64 - 2 ^ 47) := by
    rw [PageMem.Canonical, HHDM_OFFSET] at hv
    omega
  have hleaf := h.leaf v hv
  have hlost : walk nextTable s.entry (PageMem.tablePath v) root = none → T (v / PAGE_SIZE) = none := by
    intro hnone
    rw [PageMem.leafOf, PageMem.cellAt, hnone] at hleaf
    exact entryOf_eq_zero hleaf.symm
  have hpath2 : PageMem.TablePath [tableIndex v 39, tableIndex v 30] :=
    Follows.closed _ 3 _ [tableIndex v 21] (PageMem.tablePath_tablePath v)
  have hpath1 : PageMem.TablePath [tableIndex v 39] := Follows.closed _ 3 _ [tableIndex v 30] hpath2
  rw [translate, if_neg hword]
  simp only [pteAddr_root hroot, phys_entry hroot (PageMem.tableIndex_lt v 39)]
  by_cases hp4 : present (s.entry root (tableIndex v 39)) = true
  case neg =>
    rw [if_pos (Bool.eq_false_iff.mpr hp4), hlost (walk_none (P := []) [_, _] rfl hp4)]
    rfl
  obtain ⟨hw3, hf3, -, ha3⟩ := descend h hframes (follows_nil _ 3) hpath1 rfl hp4
  rw [hp4, if_neg Bool.true_eq_false.mp]
  simp only [ha3, phys_entry hf3 (PageMem.tableIndex_lt v 30)]
  by_cases hp3 : present (s.entry (tableOf (s.entry root (tableIndex v 39))) (tableIndex v 30)) = true
  case neg =>
    rw [if_pos (Bool.eq_false_iff.mpr hp3), hlost (walk_none [_] hw3 hp3)]
    rfl
  obtain ⟨hw2, hf2, hg2, ha2⟩ := descend h hframes hpath1 hpath2 hw3 hp3
  rw [hp3, if_neg Bool.true_eq_false.mp, hg2, if_neg Bool.false_eq_true.mp]
  simp only [ha2, phys_entry hf2 (PageMem.tableIndex_lt v 21)]
  by_cases hp2 : present (s.entry (tableOf (s.entry (tableOf (s.entry root (tableIndex v 39)))
    (tableIndex v 30))) (tableIndex v 21)) = true
  case neg =>
    rw [if_pos (Bool.eq_false_iff.mpr hp2), hlost (walk_none [] hw2 hp2)]
    rfl
  obtain ⟨hw1, hf1, hg1, ha1⟩ := descend h hframes hpath2 (PageMem.tablePath_tablePath v) hw2 hp2
  rw [hp2, if_neg Bool.true_eq_false.mp, hg1, if_neg Bool.false_eq_true.mp]
  simp only [ha1, phys_entry hf1 (PageMem.tableIndex_lt v 12)]
  -- the entry of the page itself
  have hlast : walk nextTable s.entry (PageMem.tablePath v) root = some _ := hw1
  rw [PageMem.leafOf, PageMem.cellAt_of_walk hlast] at hleaf
  rw [hleaf]
  cases hT : T (v / PAGE_SIZE) with
  | none => rfl
  | some f =>
    have hp : present (f * PAGE_SIZE ||| KERNEL_FLAGS) = true :=
      present_entry (Nat.mul_mod_left _ _) (by decide) (by decide)
    rw [entryOf, hp, if_neg Bool.true_eq_false.mp, pteAddr_page_entry (hsmall _ f hT)]
    rfl

/-- What `pgtable_kva` answers is the direct map of what the processor finds. -/
theorem translate_eq_kva (h : PageMem.Translates frames s root T) (hframes : ∀ f ∈ frames, IsFrame f)
    (hv : PageMem.Canonical v) (hsmall : ∀ q f, T q = some f → f * PAGE_SIZE < 2 ^ 47) :
    translate (phys s) (root - HHDM_OFFSET) v = (s.pgtableKva root v).map fun a => a - HHDM_OFFSET := by
  rw [translate_phys h hframes hv hsmall, h.kva hv hsmall, Option.map_map]
  cases T (v / PAGE_SIZE) with
  | none => rw [Option.map_none, Option.map_none]
  | some f =>
    rw [Option.map_some, Option.map_some, Function.comp_apply, Nat.add_assoc, Nat.add_sub_cancel_left]

end

/-! ### Before and after the switch -/

/-- The kernel that `vmm_init` maps is the one that `head.S` has mapped. -/
structure Loaded (k : KernelLayout) (bi : LoaderInfo) : Prop where
  virt : k.kernelStart = bi.kernel_virt_base
  phys : k.kernelPhysBase = bi.kernel_phys_base
  inside : k.kernelEnd ≤ bi.kernel_virt_base + bi.kernel_size

section

variable {bi : LoaderInfo} {k : KernelLayout} {mem : ℕ → ℕ} {s s' : PageMem} {pml4 : ℕ}

/-- What `vmm_init` builds, for the processor. -/
theorem translate_vmmInit (hk : k.Valid) (hframes : ∀ f ∈ s.pool, IsFrame f) (hnodup : s.pool.Nodup)
    (hr : k.vmmInit s = some (pml4, s')) {v : ℕ} (hv : PageMem.Canonical v) :
    translate (phys s') (pml4 - HHDM_OFFSET) v =
      if k.InImage v then some (k.kernelPhysBase + v - k.kernelStart)
      else if HHDM_OFFSET ≤ v ∧ k.InDirectMap (v - HHDM_OFFSET) then some (v - HHDM_OFFSET)
      else none := by
  have hmaps := KernelLayout.vmmInit_maps hk hframes hnodup hr
  have hkva := hmaps.kva hk hv
  obtain ⟨T, htrans, hmap⟩ := hmaps
  rw [translate_eq_kva htrans hframes hv (hmap.small hk), hkva]
  split
  · rw [Option.map_some, Nat.add_sub_cancel_left]
  · split
    · rfl
    · rfl

/-- **The switch of tables.**  With at most 23 GiB of memory and a kernel that ends in the GiB it begins in, `vmm_init`
leads every address of the kernel image, and every address of the direct map in the memory map or the framebuffer, to the
place where the tables of `head.S` had it; of the lower half nothing stays mapped. -/
theorem vmmInit_switch
    (hzero : ∀ a, bi.scratch_phys_base ≤ a → a < bi.scratch_phys_base + bi.scratch_size → mem a = 0)
    (hmemory : bi.highest_addr ≤ 23 * 2 ^ 30) (hwindow : bi.kernel_virt_base % 2 ^ 30 + bi.kernel_size ≤ 2 ^ 30)
    (hl : Loaded k bi) (hk : k.Valid) (hframes : ∀ f ∈ s.pool, IsFrame f) (hnodup : s.pool.Nodup)
    (hr : k.vmmInit s = some (pml4, s')) :
    (∀ v, k.kernelStart ≤ v → v < k.kernelEnd →
      translate (bi.start mem).mem bi.scratch_phys_base v = some (bi.kernel_phys_base + (v - k.kernelStart)) ∧
        translate (phys s') (pml4 - HHDM_OFFSET) v = translate (bi.start mem).mem bi.scratch_phys_base v) ∧
    (∀ x < bi.highest_addr, k.InDirectMap x →
      translate (bi.start mem).mem bi.scratch_phys_base (HHDM_OFFSET + x) = some x ∧
        translate (phys s') (pml4 - HHDM_OFFSET) (HHDM_OFFSET + x) =
          translate (bi.start mem).mem bi.scratch_phys_base (HHDM_OFFSET + x)) ∧
    ∀ v < 2 ^ 47, translate (phys s') (pml4 - HHDM_OFFSET) v = none := by
  obtain ⟨b, hb⟩ : ∃ b, bi.scratch_phys_base = 4096 * b := Nat.dvd_of_mod_eq_zero bi.scratchPage
  obtain ⟨hgibs, hcover⟩ := hhdmGibs_small hmemory
  have hpages : 9 + bi.hhdmGibs ≤ SCRATCH_PAGES := by
    rw [SCRATCH_PAGES]
    omega
  have hlaid := laid_start bi hb hpages hzero
  have hends := bi.scratchFits
  rw [SCRATCH_PAGES] at hpages
  rw [hb, bi.scratchSize, SCRATCH_PAGES, PAGE_SIZE, PHYS_END] at hends
  have hmaps := KernelLayout.vmmInit_maps hk hframes hnodup hr
  have hvirt := hl.virt
  have hfits := hk.fits
  have hhigh := hk.high
  rw [hb]
  refine ⟨fun v hstart hstop => ?_, fun x hx hin => ?_, fun v hv => ?_⟩
  · have hinside := hl.inside
    have hold := hlaid.translate_kernel (y := v - k.kernelStart) (by omega) hwindow (by rw [hl.virt]; omega)
    rw [← hl.virt, Nat.add_sub_cancel' hstart] at hold
    have himage : k.InImage v := by
      rw [KernelLayout.InImage, alignDown, alignUp_eq]
      rw [PAGE_SIZE] at hfits ⊢
      omega
    refine ⟨hold, ?_⟩
    rw [hold, translate_vmmInit hk hframes hnodup hr (.inr ⟨by omega, by omega⟩), if_pos himage, hl.phys]
    apply congrArg some
    omega
  · have hold := hlaid.translate_hhdm (x := x) (by omega) (by omega)
    have hbase : BOOT_HHDM_BASE = HHDM_OFFSET := by decide
    rw [hbase] at hold
    obtain ⟨hword, hoff⟩ := hmaps.direct_below hk hin
    have hsub : HHDM_OFFSET + x - HHDM_OFFSET = x := Nat.add_sub_cancel_left _ _
    refine ⟨hold, ?_⟩
    rw [hold, translate_vmmInit hk hframes hnodup hr (.inr ⟨by omega, hword⟩), if_neg hoff, hsub, if_pos ⟨by omega, hin⟩]
  · have hoff : ¬k.InImage v := by
      rw [KernelLayout.InImage, alignDown]
      rw [HHDM_OFFSET] at hhigh
      rw [PAGE_SIZE]
      omega
    rw [translate_vmmInit hk hframes hnodup hr (.inl hv), if_neg hoff, if_neg]
    rw [HHDM_OFFSET]
    omega

end

theorem vmmInit_switch_sevenPages : ∃ pml4 s',
    KernelLayout.sevenPages.vmmInit KernelLayout.sevenFrames = some (pml4, s') ∧
      translate (phys s') (pml4 - HHDM_OFFSET) 0xFFFFFFFF80001234 = some 0x201234 ∧
      translate (phys s') (pml4 - HHDM_OFFSET) (HHDM_OFFSET + 0x2345) = some 0x2345 ∧
      translate (phys s') (pml4 - HHDM_OFFSET) 0x2345 = none := by
  obtain ⟨⟨pml4, s'⟩, hr⟩ := Option.isSome_iff_exists.mp KernelLayout.vmmInit_sevenPages
  have hl : Loaded KernelLayout.sevenPages (machine (3 * 2 ^ 30) (by decide)) := ⟨rfl, rfl, by decide⟩
  have hwindow : (machine (3 * 2 ^ 30) (by decide)).kernel_virt_base % 2 ^ 30 +
      (machine (3 * 2 ^ 30) (by decide)).kernel_size ≤ 2 ^ 30 := by decide
  have hzero : ∀ a, (machine (3 * 2 ^ 30) (by decide)).scratch_phys_base ≤ a →
      a < (machine (3 * 2 ^ 30) (by decide)).scratch_phys_base + (machine (3 * 2 ^ 30) (by decide)).scratch_size →
      (fun _ : ℕ => 0) a = 0 := fun _ _ _ => rfl
  obtain ⟨himage, hdirect, hlow⟩ := vmmInit_switch hzero (by decide) hwindow hl KernelLayout.sevenPages_valid
    KernelLayout.sevenFrames_isFrame (by decide) hr
  refine ⟨pml4, s', hr, ?_, ?_, hlow _ (by decide)⟩
  · obtain ⟨hold, hnew⟩ := himage 0xFFFFFFFF80001234 (by decide) (by decide)
    rw [hnew, hold]
    rfl
  · obtain ⟨hold, hnew⟩ := hdirect 0x2345 (by decide) (by decide)
    rw [hnew, hold]

end LizardOs.Boot
