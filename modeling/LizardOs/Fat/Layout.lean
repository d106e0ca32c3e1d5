import LizardOs.Fat.Slots

/-!
# Where things lie on the disk

The FAT copies, the root directory and the data clusters occupy disjoint sectors, and distinct slots of a
directory occupy disjoint bytes.  So each primitive update of the volume (a table entry, a data sector, a
directory slot, a zeroed cluster) changes the entries and the table in exactly one place; the lemmas below
say so in terms of `entryAt` and `fatAt`, and later proofs never look at bytes again.
-/

namespace LizardOs.Fat

open LizardOs.Lib

namespace FatHeader

variable {h : FatHeader}

theorem clusterToLba_eq {c : ℕ} (hc : FAT16_CLUSTER_MIN ≤ c) :
    h.clusterToLba c = (c - FAT16_CLUSTER_MIN) * h.spc + h.dataRegionLba := by
  rw [clusterToLba, if_neg (by omega)]

theorem dataRegion_le_clusterToLba {c : ℕ} (hc : FAT16_CLUSTER_MIN ≤ c) :
    h.dataRegionLba ≤ h.clusterToLba c := by
  rw [clusterToLba_eq hc]
  omega

theorem rootDir_le_dataRegion : h.rootDirLba ≤ h.dataRegionLba := by
  unfold dataRegionLba
  omega

theorem rootDir_le_clusterToLba {c : ℕ} (hc : FAT16_CLUSTER_MIN ≤ c) :
    h.rootDirLba ≤ h.clusterToLba c :=
  le_trans rootDir_le_dataRegion (dataRegion_le_clusterToLba hc)

/-- Distinct clusters share no sector. -/
theorem clusterToLba_disjoint {c d i j : ℕ} (hc : FAT16_CLUSTER_MIN ≤ c)
    (hd : FAT16_CLUSTER_MIN ≤ d) (hcd : c ≠ d) (hi : i < h.spc) (hj : j < h.spc) :
    h.clusterToLba c + i ≠ h.clusterToLba d + j := by
  rw [clusterToLba_eq hc, clusterToLba_eq hd]
  rcases Nat.lt_or_gt_of_ne hcd with hlt | hlt
  · have h1 : (c - FAT16_CLUSTER_MIN + 1) * h.spc ≤ (d - FAT16_CLUSTER_MIN) * h.spc :=
      Nat.mul_le_mul_right _ (by omega)
    rw [Nat.add_mul] at h1
    omega
  · have h1 : (d - FAT16_CLUSTER_MIN + 1) * h.spc ≤ (c - FAT16_CLUSTER_MIN) * h.spc :=
      Nat.mul_le_mul_right _ (by omega)
    rw [Nat.add_mul] at h1
    omega

end FatHeader

/-! ### Slots -/

/-- A slot of the directory region: from the root directory on, and aligned. -/
structure DirLoc.Proper (h : FatHeader) (loc : DirLoc) : Prop where
  root_le : h.rootDirLba ≤ loc.lba
  aligned : ∃ k, k < 16 ∧ loc.off = k * FAT16_DIR_ENTRY_SIZE

theorem FatHeader.Sound.perSector_eq {h : FatHeader} (hs : h.Sound) : h.perSector = 16 := by
  rw [FatHeader.perSector, hs.bps_eq]
  rfl

theorem mem_rootSlots {h : FatHeader} (hs : h.Sound) {loc : DirLoc} :
    loc ∈ h.rootSlots ↔ h.rootDirLba ≤ loc.lba ∧ loc.lba < h.dataRegionLba ∧
      ∃ k, k < 16 ∧ loc.off = k * FAT16_DIR_ENTRY_SIZE := by
  rw [FatHeader.rootSlots, mem_regionSlots, hs.perSector_eq]
  rfl

theorem mem_clusterSlots {h : FatHeader} (hs : h.Sound) {c : ℕ} {loc : DirLoc} :
    loc ∈ h.clusterSlots c ↔ h.clusterToLba c ≤ loc.lba ∧ loc.lba < h.clusterToLba c + h.spc ∧
      ∃ k, k < 16 ∧ loc.off = k * FAT16_DIR_ENTRY_SIZE := by
  rw [FatHeader.clusterSlots, mem_regionSlots, hs.perSector_eq]

theorem mem_dirSlots {h : FatHeader} {d : ℕ} {l : List ℕ} {loc : DirLoc} :
    loc ∈ h.dirSlots d l ↔
      (d = 0 ∧ loc ∈ h.rootSlots) ∨ (d ≠ 0 ∧ ∃ c ∈ l, loc ∈ h.clusterSlots c) := by
  unfold FatHeader.dirSlots
  by_cases hd : d = 0
  · simp [hd]
  · simp [hd, List.mem_flatMap]

theorem clusterSlots_proper {h : FatHeader} (hs : h.Sound) {c : ℕ} (hc : FAT16_CLUSTER_MIN ≤ c)
    {loc : DirLoc} (hloc : loc ∈ h.clusterSlots c) : loc.Proper h := by
  obtain ⟨h1, -, h3⟩ := (mem_clusterSlots hs).mp hloc
  exact ⟨le_trans (FatHeader.rootDir_le_clusterToLba hc) h1, h3⟩

theorem dirSlots_proper {h : FatHeader} (hs : h.Sound) {d : ℕ} {l : List ℕ}
    (hl : ∀ c ∈ l, FAT16_CLUSTER_MIN ≤ c) {loc : DirLoc} (hloc : loc ∈ h.dirSlots d l) :
    loc.Proper h := by
  rcases mem_dirSlots.mp hloc with ⟨-, hloc⟩ | ⟨-, c, hc, hloc⟩
  · obtain ⟨h1, -, h3⟩ := (mem_rootSlots hs).mp hloc
    exact ⟨h1, h3⟩
  · exact clusterSlots_proper hs (hl c hc) hloc

/-- Slots of distinct clusters lie in different sectors. -/
theorem clusterSlots_disjoint {h : FatHeader} (hs : h.Sound) {c d : ℕ}
    (hc : FAT16_CLUSTER_MIN ≤ c) (hd : FAT16_CLUSTER_MIN ≤ d) (hcd : c ≠ d) {loc : DirLoc}
    (hloc : loc ∈ h.clusterSlots c) {i : ℕ} (hi : i < h.spc) :
    loc.lba ≠ h.clusterToLba d + i := by
  obtain ⟨h1, h2, -⟩ := (mem_clusterSlots hs).mp hloc
  have := FatHeader.clusterToLba_disjoint hc hd hcd
    (show loc.lba - h.clusterToLba c < h.spc by omega) hi
  omega

/-- A slot of the root directory lies in no data cluster. -/
theorem rootSlots_disjoint {h : FatHeader} (hs : h.Sound) {c : ℕ} (hc : FAT16_CLUSTER_MIN ≤ c)
    {loc : DirLoc} (hloc : loc ∈ h.rootSlots) (i : ℕ) : loc.lba ≠ h.clusterToLba c + i := by
  obtain ⟨-, h2, -⟩ := (mem_rootSlots hs).mp hloc
  have := FatHeader.dataRegion_le_clusterToLba (h := h) hc
  omega

/-- A slot of a directory lies in no cluster outside the directory's chain. -/
theorem dirSlots_disjoint {h : FatHeader} (hs : h.Sound) {d c : ℕ} {l : List ℕ}
    (hl : ∀ x ∈ l, FAT16_CLUSTER_MIN ≤ x) (hc : FAT16_CLUSTER_MIN ≤ c) (hcl : c ∉ l)
    {loc : DirLoc} (hloc : loc ∈ h.dirSlots d l) {i : ℕ} (hi : i < h.spc) :
    loc.lba ≠ h.clusterToLba c + i := by
  rcases mem_dirSlots.mp hloc with ⟨-, hloc⟩ | ⟨-, x, hx, hloc⟩
  · exact rootSlots_disjoint hs hc hloc i
  · exact clusterSlots_disjoint hs (hl x hx) hc (fun hxc => hcl (hxc ▸ hx)) hloc hi

/-- Two directories on disjoint chains share no slot. -/
theorem dirSlots_ne {h : FatHeader} (hs : h.Sound) {d d' : ℕ} {l l' : List ℕ}
    (hl : ∀ x ∈ l, FAT16_CLUSTER_MIN ≤ x) (hl' : ∀ x ∈ l', FAT16_CLUSTER_MIN ≤ x)
    (hdd : d ≠ d') (hdisj : List.Disjoint l l') {loc loc' : DirLoc}
    (hloc : loc ∈ h.dirSlots d l) (hloc' : loc' ∈ h.dirSlots d' l') : loc.lba ≠ loc'.lba := by
  rcases mem_dirSlots.mp hloc' with ⟨hd', hr'⟩ | ⟨-, c', hc', hr'⟩
  · rcases mem_dirSlots.mp hloc with ⟨hd, -⟩ | ⟨-, c, hc, hr⟩
    · exact absurd (hd.trans hd'.symm) hdd
    · obtain ⟨h1, h2, -⟩ := (mem_clusterSlots hs).mp hr
      have := rootSlots_disjoint hs (hl c hc) hr' (loc.lba - h.clusterToLba c)
      omega
  · obtain ⟨h1, h2, -⟩ := (mem_clusterSlots hs).mp hr'
    have := dirSlots_disjoint hs hl (hl' c' hc') (fun hc => hdisj hc hc') hloc
      (show loc'.lba - h.clusterToLba c' < h.spc by omega)
    omega

/-! ### What the primitive updates do to entries and table -/

namespace Fat16

variable {fs : Fat16}

theorem setSector_entryAt {lba : ℕ} {buf : Buf} {loc : DirLoc} (hne : loc.lba ≠ lba) :
    (fs.setSector lba buf).entryAt loc = fs.entryAt loc := by
  unfold entryAt
  rw [setSector_disk_ne hne]

theorem freeAll_entryAt (hs : fs.header.Sound) {l : List ℕ}
    (hl : ∀ c ∈ l, c ≤ fs.header.lastCluster) {loc : DirLoc}
    (hloc : fs.header.rootDirLba ≤ loc.lba) : (fs.freeAll l).entryAt loc = fs.entryAt loc := by
  unfold entryAt
  rw [freeAll_disk hs hl hloc]

/-- Replace the entry in a slot. -/
def setEntry (fs : Fat16) (loc : DirLoc) (ent : Fat16Directory) : Fat16 :=
  fs.setSector loc.lba (splice (fs.disk loc.lba) loc.off ent.toBytes FAT16_DIR_ENTRY_SIZE)

@[simp] theorem setEntry_header (fs : Fat16) (loc : DirLoc) (ent : Fat16Directory) :
    (fs.setEntry loc ent).header = fs.header := rfl

@[simp] theorem setEntry_readOnly (fs : Fat16) (loc : DirLoc) (ent : Fat16Directory) :
    (fs.setEntry loc ent).readOnly = fs.readOnly := rfl

theorem setEntry_entryAt_self (fs : Fat16) (loc : DirLoc) (ent : Fat16Directory) :
    (fs.setEntry loc ent).entryAt loc = ent := by
  have hbytes : (fs.setEntry loc ent).entryAt loc = Fat16Directory.ofBytes ent.toBytes := by
    unfold setEntry entryAt
    rw [setSector_disk_self]
    apply Fat16Directory.ofBytes_congr
    intro j hj
    exact splice_inside hj
  rw [hbytes, Fat16Directory.ofBytes_toBytes]

/-- Distinct slots occupy disjoint bytes. -/
theorem setEntry_entryAt_ne {h : FatHeader} {loc loc' : DirLoc} (hp : loc.Proper h)
    (hp' : loc'.Proper h) (hne : loc' ≠ loc) (ent : Fat16Directory) :
    (fs.setEntry loc ent).entryAt loc' = fs.entryAt loc' := by
  by_cases hlba : loc'.lba = loc.lba
  · obtain ⟨k, -, hk⟩ := hp.aligned
    obtain ⟨k', -, hk'⟩ := hp'.aligned
    have hoff : loc'.off ≠ loc.off := by
      intro hoff
      apply hne
      cases loc
      cases loc'
      simp_all
    unfold setEntry entryAt
    rw [hlba, setSector_disk_self]
    apply Fat16Directory.ofBytes_congr
    intro j hj
    apply splice_outside
    simp only [FAT16_DIR_ENTRY_SIZE] at *
    omega
  · exact setSector_entryAt hlba

theorem setEntry_mounted (hm : fs.Mounted) {loc : DirLoc} (hp : loc.Proper fs.header)
    (ent : Fat16Directory) : (fs.setEntry loc ent).Mounted :=
  setSector_mounted hm hp.root_le _

theorem setEntry_fatAt (hs : fs.header.Sound) {loc : DirLoc} (hp : loc.Proper fs.header)
    (ent : Fat16Directory) {c : ℕ} (hc : c ≤ fs.header.lastCluster) :
    (fs.setEntry loc ent).fatAt c = fs.fatAt c :=
  setSector_fatAt hs hp.root_le _ hc

/-- Zero `n` sectors from `lba` on. -/
def zeroed (fs : Fat16) : ℕ → ℕ → Fat16
  | 0, _ => fs
  | n + 1, lba => (fs.setSector lba fun _ => 0).zeroed n (lba + 1)

@[simp] theorem zeroed_header (fs : Fat16) (n lba : ℕ) : (fs.zeroed n lba).header = fs.header := by
  induction n generalizing fs lba with
  | zero => rfl
  | succ n ih => rw [zeroed, ih, setSector_header]

@[simp] theorem zeroed_readOnly (fs : Fat16) (n lba : ℕ) :
    (fs.zeroed n lba).readOnly = fs.readOnly := by
  induction n generalizing fs lba with
  | zero => rfl
  | succ n ih => rw [zeroed, ih, setSector_readOnly]

theorem zeroed_rest (fs : Fat16) (n lba : ℕ) :
    fs.zeroed n lba = { fs with disk := (fs.zeroed n lba).disk } := by
  induction n generalizing fs lba with
  | zero => rfl
  | succ n ih =>
    rw [zeroed, ih]
    rfl

theorem zeroed_mounted (hm : fs.Mounted) {n lba : ℕ} (hlba : fs.header.rootDirLba ≤ lba) :
    (fs.zeroed n lba).Mounted := by
  induction n generalizing fs lba with
  | zero => exact hm
  | succ n ih =>
    apply ih (setSector_mounted hm hlba _)
    rw [setSector_header]
    omega

theorem zeroed_disk (fs : Fat16) (n lba lba' : ℕ) :
    (fs.zeroed n lba).disk lba' =
      if lba ≤ lba' ∧ lba' < lba + n then fun _ => 0 else fs.disk lba' := by
  induction n generalizing fs lba with
  | zero => rw [if_neg (by omega)]; rfl
  | succ n ih =>
    rw [zeroed, ih]
    by_cases h0 : lba' = lba
    · subst h0
      rw [if_neg (by omega), if_pos (by omega), setSector_disk_self]
    · rw [setSector_disk_ne h0]
      by_cases h1 : lba + 1 ≤ lba' ∧ lba' < lba + 1 + n
      · rw [if_pos h1, if_pos (by omega)]
      · rw [if_neg h1, if_neg (by omega)]

theorem zeroed_fatAt (hs : fs.header.Sound) {n lba c : ℕ} (hlba : fs.header.rootDirLba ≤ lba)
    (hc : c ≤ fs.header.lastCluster) : (fs.zeroed n lba).fatAt c = fs.fatAt c := by
  have h1 := hs.entry_lt hc
  have h2 := FatHeader.copy_lt_root (h := fs.header) (f := 0) (s := c * 2 / 512) hs.fats (by omega)
  unfold fatAt
  rw [zeroed_header, zeroed_disk, if_neg (by omega)]

theorem entryAt_of_zero {loc : DirLoc} (h : fs.disk loc.lba = fun _ => 0) :
    fs.entryAt loc = Fat16Directory.zero := by
  unfold entryAt
  rw [h]
  show Fat16Directory.ofBytes (fun _ => 0) = Fat16Directory.zero
  decide

end Fat16

theorem fat16DirWrite_ok {fs : Fat16} (hf : fs.NoFaults) (loc : DirLoc) (ent : Fat16Directory) :
    fat16DirWrite loc ent fs = some (true, fs.setEntry loc ent) := by
  simp only [fat16DirWrite, Prog.bind_apply, blkDevRead_ok hf, Prog.obind_some, blkDevWrite_ok hf]
  rfl

theorem zeroSectors_ok {fs : Fat16} (hf : fs.NoFaults) (n lba : ℕ) :
    zeroSectors n lba fs = some (true, fs.zeroed n lba) := by
  induction n generalizing fs lba with
  | zero => rfl
  | succ n ih =>
    simp only [zeroSectors, Prog.bind_apply, blkDevWrite_ok hf, Prog.obind_some, if_true,
      ih (Fat16.setSector_noFaults hf _ _)]
    rfl

end LizardOs.Fat
