import LizardOs.Fat.Mount
import LizardOs.Fat.WalkEnds
import LizardOs.Lib.Strides

/-!
# The sectors of the clusters

The geometry that `fat16_mount` keeps in `struct fat16` and `fat16_cluster_to_lba`, in the 32 bits of the code.  Where
the data begins on the volume nothing overflows, and the clusters from 2 to the last one that `fat16_cluster_alloc`
considers have ranges of their own behind the metadata.
-/

namespace LizardOs.Fat

open LizardOs.Lib

/-- The fields of `struct fat16` that `fat16_mount` computes. -/
structure Fat16Geometry where
  fat_start_lba : UInt32
  root_dir_lba : UInt32
  root_dir_sectors : UInt32
  data_region_lba : UInt32
  total_clusters : UInt32

/-- The geometry of a volume; what the code computes as `int` has 32 bits too, and is not negative. -/
def FatHeader.geometry (h : FatHeader) : Fat16Geometry :=
  let fatStart := h.reservedSectorCount.toUInt32
  let rootDir := fatStart + h.numFats.toUInt32 * h.fatSize16.toUInt32
  let rootSectors := (h.rootEntryCount.toUInt32 * 32 + h.bytesPerSector.toUInt32 - 1) / h.bytesPerSector.toUInt32
  let dataRegion := rootDir + rootSectors
  let total := if h.totalSectors16 ≠ 0 then h.totalSectors16.toUInt32 else h.totalSectors32
  { fat_start_lba := fatStart
    root_dir_lba := rootDir
    root_dir_sectors := rootSectors
    data_region_lba := dataRegion
    total_clusters := (total - dataRegion) / h.sectorsPerCluster.toUInt32 }

/-- `fat16_cluster_to_lba`. -/
def FatHeader.fat16ClusterToLba (h : FatHeader) (cluster : UInt16) : UInt32 :=
  if cluster < 2 then 0 else (cluster.toUInt32 - 2) * h.sectorsPerCluster.toUInt32 + h.geometry.data_region_lba

/-- The clusters of a volume that the code can give out. -/
def FatHeader.HasCluster (h : FatHeader) (c : ℕ) : Prop :=
  FAT16_CLUSTER_MIN ≤ c ∧ c ≤ min (h.geometry.total_clusters.toNat + 1) FAT16_CLUSTER_MAX

/-- Nothing in the geometry has overflowed. -/
structure FatHeader.Exact (h : FatHeader) : Prop where
  fatStart : h.geometry.fat_start_lba.toNat = h.reservedSectorCount.toNat
  rootDir : h.geometry.root_dir_lba.toNat = h.geometry.fat_start_lba.toNat + h.numFats.toNat * h.fatSize16.toNat
  rootDirSectors : h.geometry.root_dir_sectors.toNat = (h.rootEntryCount.toNat * 32 + h.bps - 1) / h.bps
  dataRegion : h.geometry.data_region_lba.toNat = h.geometry.root_dir_lba.toNat + h.geometry.root_dir_sectors.toNat
  totalClusters : h.geometry.total_clusters.toNat = (h.totalSectors - h.geometry.data_region_lba.toNat) / h.spc

/-- The sectors of the cluster are in the data region, and neither reserved nor those of the FATs or of the root
directory. -/
structure FatHeader.InDataRegion (h : FatHeader) (c : UInt16) : Prop where
  exact : (h.fat16ClusterToLba c).toNat = (c.toNat - 2) * h.spc + h.geometry.data_region_lba.toNat
  behind : h.geometry.data_region_lba.toNat ≤ (h.fat16ClusterToLba c).toNat
  inside : (h.fat16ClusterToLba c).toNat + h.spc ≤ h.totalSectors
  reserved : RangesApart (h.fat16ClusterToLba c).toNat h.spc 0 h.geometry.fat_start_lba.toNat
  fats : RangesApart (h.fat16ClusterToLba c).toNat h.spc h.geometry.fat_start_lba.toNat
    (h.numFats.toNat * h.fatSize16.toNat)
  rootDir : RangesApart (h.fat16ClusterToLba c).toNat h.spc h.geometry.root_dir_lba.toNat
    h.geometry.root_dir_sectors.toNat

/-! ### Nothing overflows -/

section

variable {h : FatHeader}

theorem FatHeader.fats_le (h : FatHeader) : h.numFats.toNat * h.fatSize16.toNat ≤ 255 * 65535 :=
  Nat.mul_le_mul (Nat.le_of_lt_succ h.numFats.toNat_lt) (Nat.le_of_lt_succ h.fatSize16.toNat_lt)

theorem FatHeader.rootDirSectors_le (h : FatHeader) : h.rootDirSectors ≤ 65535 * 32 + 65535 := by
  have hentries := h.rootEntryCount.toNat_lt
  have hbytes := h.bytesPerSector.toNat_lt
  refine (Nat.div_le_self _ _).trans ?_
  rw [FatHeader.bps, FAT16_DIR_ENTRY_SIZE]
  omega

theorem FatHeader.geometry_root (h : FatHeader) :
    h.geometry.fat_start_lba.toNat = h.fatStartLba ∧ h.geometry.root_dir_lba.toNat = h.rootDirLba := by
  have hreserved := h.reservedSectorCount.toNat_lt
  have hfats := h.fats_le
  refine ⟨UInt16.toNat_toUInt32 _, ?_⟩
  simp only [FatHeader.geometry, UInt32.toNat_add, UInt32.toNat_mul, UInt16.toNat_toUInt32, UInt8.toNat_toUInt32,
    FatHeader.rootDirLba, FatHeader.fatStartLba]
  omega

theorem FatHeader.geometry_rootDirSectors (h : FatHeader) :
    h.geometry.root_dir_sectors.toNat = h.rootDirSectors := by
  have hentries := h.rootEntryCount.toNat_lt
  have hbytes := h.bytesPerSector.toNat_lt
  simp only [FatHeader.geometry, UInt32.toNat_div, UInt32.toNat_sub, UInt32.toNat_add, UInt32.toNat_mul,
    UInt16.toNat_toUInt32, FatHeader.rootDirSectors, FatHeader.bps, FAT16_DIR_ENTRY_SIZE]
  by_cases hzero : h.bytesPerSector.toNat = 0
  · rw [hzero, Nat.div_zero, Nat.div_zero]
  · refine congrArg (· / h.bytesPerSector.toNat) ?_
    have h32 : UInt32.toNat 32 = 32 := rfl
    have h1 : UInt32.toNat 1 = 1 := rfl
    rw [h32, h1]
    omega

theorem FatHeader.geometry_dataRegion (h : FatHeader) : h.geometry.data_region_lba.toNat = h.dataRegionLba := by
  have hroot := h.geometry_root.2
  have hsectors := h.geometry_rootDirSectors
  have hfats := h.fats_le
  have hle := h.rootDirSectors_le
  have hreserved := h.reservedSectorCount.toNat_lt
  have hsum : h.geometry.data_region_lba = h.geometry.root_dir_lba + h.geometry.root_dir_sectors := rfl
  rw [hsum, UInt32.toNat_add, hroot, hsectors, FatHeader.dataRegionLba]
  refine Nat.mod_eq_of_lt ?_
  rw [FatHeader.rootDirLba, FatHeader.fatStartLba]
  omega

theorem FatHeader.geometry_totalClusters (h : FatHeader) :
    h.geometry.total_clusters.toNat = h.totalClusters := by
  have htotal : (if h.totalSectors16 ≠ 0 then h.totalSectors16.toUInt32 else h.totalSectors32).toNat =
      h.totalSectors := by
    rw [FatHeader.totalSectors, apply_ite UInt32.toNat, UInt16.toNat_toUInt32]
  have hdef : h.geometry.total_clusters = ((if h.totalSectors16 ≠ 0 then h.totalSectors16.toUInt32
      else h.totalSectors32) - h.geometry.data_region_lba) / h.sectorsPerCluster.toUInt32 := rfl
  have hlt := h.geometry.data_region_lba.toNat_lt
  rw [hdef, UInt32.toNat_div, UInt32.toNat_sub, htotal, h.geometry_dataRegion, UInt8.toNat_toUInt32,
    FatHeader.totalClusters, FatHeader.spc]
  rw [h.geometry_dataRegion] at hlt
  have hwrap : (2 ^ 32 - h.dataRegionLba + h.totalSectors) % 2 ^ 32 =
      (h.totalSectors + 2 ^ 32 - h.dataRegionLba) % 2 ^ 32 := by
    refine congrArg (· % 2 ^ 32) ?_
    omega
  rw [hwrap]

/-- The first sector of a cluster, computed without overflow. -/
theorem FatHeader.fat16ClusterToLba_toNat (h : FatHeader) (c : UInt16) :
    (h.fat16ClusterToLba c).toNat = h.clusterToLba c.toNat := by
  have hc := c.toNat_lt
  have hspc := h.sectorsPerCluster.toNat_lt
  have hdata := h.geometry_dataRegion
  have hfats := h.fats_le
  have hle := h.rootDirSectors_le
  have hreserved := h.reservedSectorCount.toNat_lt
  have hmul : (c.toNat - 2) * h.sectorsPerCluster.toNat ≤ 65535 * 255 := Nat.mul_le_mul (by omega) (by omega)
  have hlow : c < 2 ↔ c.toNat < 2 := UInt16.lt_iff_toNat_lt
  rw [FatHeader.fat16ClusterToLba, FatHeader.clusterToLba, FAT16_CLUSTER_MIN]
  by_cases hmin : c.toNat < 2
  · rw [if_pos (hlow.mpr hmin), if_pos hmin]
    rfl
  · have hsub : (c.toUInt32 - 2).toNat = c.toNat - 2 := by
      have h2 : UInt32.toNat 2 = 2 := rfl
      rw [UInt32.toNat_sub, UInt16.toNat_toUInt32, h2]
      omega
    rw [if_neg fun hlt => hmin (hlow.mp hlt), if_neg hmin, UInt32.toNat_add, UInt32.toNat_mul, hsub,
      UInt8.toNat_toUInt32, hdata, FatHeader.spc, FatHeader.dataRegionLba, FatHeader.rootDirLba, FatHeader.fatStartLba]
    omega

theorem FatHeader.exact_of_fits (hdata : h.geometry.data_region_lba.toNat ≤ h.totalSectors) : h.Exact := by
  obtain ⟨hstart, hroot⟩ := h.geometry_root
  have hregion := h.geometry_dataRegion
  refine ⟨hstart, ?_, h.geometry_rootDirSectors, ?_, ?_⟩
  · rw [hroot, hstart]
    rfl
  · rw [hregion, hroot, h.geometry_rootDirSectors]
    rfl
  · rw [hregion] at hdata ⊢
    rw [h.geometry_totalClusters, FatHeader.totalClusters_eq hdata]

/-! ### The ranges -/

/-- The clusters of a volume are cells of the data region. -/
theorem FatHeader.HasCluster.mem_strides {c : ℕ} (hc : h.HasCluster c) (hdata : h.dataRegionLba ≤ h.totalSectors) :
    h.clusterToLba c ∈ strides h.dataRegionLba h.spc ((h.totalSectors - h.dataRegionLba) / h.spc) := by
  obtain ⟨hmin, hmax⟩ := hc
  have hlast := hmax.trans (Nat.min_le_left _ _)
  rw [h.geometry_totalClusters, FatHeader.totalClusters_eq hdata] at hlast
  refine Lib.mem_strides.mpr ⟨c - FAT16_CLUSTER_MIN, ?_, ?_⟩
  · rw [FAT16_CLUSTER_MIN] at hmin ⊢
    omega
  · rw [FatHeader.clusterToLba_eq hmin, Nat.add_comm]

theorem FatHeader.HasCluster.inDataRegion {c : UInt16} (hc : h.HasCluster c.toNat)
    (hdata : h.geometry.data_region_lba.toNat ≤ h.totalSectors) : h.InDataRegion c := by
  have hexact := FatHeader.exact_of_fits hdata
  have hroot := hexact.rootDir
  have hregion := hexact.dataRegion
  have hlba := h.fat16ClusterToLba_toNat c
  have hsame := h.geometry_dataRegion
  obtain ⟨hbehind, hinside⟩ := strides_inside (hc.mem_strides (hsame ▸ hdata))
  rw [← hlba] at hbehind hinside
  rw [← hsame] at hbehind
  refine ⟨?_, hbehind, hinside, .inr (by omega), .inr (by omega), .inr (by omega)⟩
  rw [hlba, hsame, FatHeader.clusterToLba_eq hc.1]
  rfl

/-! ### The allocator -/

/-- The search gives a cluster out that the table has for free. -/
theorem clusterAllocFrom_returns {fs fs' : Fat16} {a : ℕ} (n : ℕ) : ∀ c fs₁, SameVolume fs fs₁ →
    clusterAllocFrom n c fs₁ = some (some a, fs') → c ≤ a ∧ a < c + n ∧ fs.linkAt a = FAT16_FREE_CLUSTER := by
  induction n with
  | zero =>
    intro c fs₁ _ hrun
    cases hrun
  | succ n ih =>
    intro c fs₁ hsame hrun
    obtain ⟨r, fs₂, hget, hsame₂, hr⟩ := Settles.fat16FatGet c fs₁ hsame
    rw [clusterAllocFrom, Prog.bind_of_eq hget] at hrun
    cases r with
    | none => cases hrun
    | some v =>
      have hv := hr v rfl
      simp only [Prog.ite_apply] at hrun
      split at hrun
      next hfree =>
        obtain ⟨ok, fs₃, -, hrest⟩ := Prog.bind_eq_some.mp hrun
        cases ok with
        | false => cases hrest
        | true =>
          obtain ⟨hsome, -⟩ := Prod.mk.inj (Option.some.inj hrest)
          obtain rfl := Option.some.inj hsome
          exact ⟨le_rfl, by omega, hv.symm.trans hfree⟩
      next hused =>
        obtain ⟨hlow, hhigh, hfree⟩ := ih (c + 1) fs₂ (hsame.trans hsame₂) hrun
        exact ⟨by omega, by omega, hfree⟩

theorem fat16ClusterAlloc_returns {fs fs' : Fat16} {a : ℕ} (hrun : fat16ClusterAlloc fs = some (some a, fs')) :
    fs.header.HasCluster a ∧ fs.linkAt a = FAT16_FREE_CLUSTER := by
  rw [fat16ClusterAlloc_search] at hrun
  obtain ⟨hlow, hhigh, hfree⟩ := clusterAllocFrom_returns _ _ fs (SameVolume.refl fs) hrun
  refine ⟨⟨hlow, ?_⟩, hfree⟩
  have hlast : a ≤ fs.header.lastCluster := by
    rw [FAT16_CLUSTER_MIN] at hlow hhigh
    omega
  rw [fs.header.geometry_totalClusters]
  exact hlast.trans (min_le_min_right _ (Nat.mod_le _ _))

/-- Where the table in RAM repeats the first FAT, an entry is that of the FAT on the disk. -/
theorem Fat16.CacheAgrees.linkAt_eq {fs : Fat16} (ha : fs.CacheAgrees) (ht : fs.header.Tabled) (c : ℕ) :
    fs.linkAt c = fs.fatAt c := by
  rw [Fat16.linkAt]
  cases hcache : fs.fatCache with
  | none =>
    simp only [ht.bps_eq]
    rfl
  | some cache =>
    simp only [ht.bps_eq]
    split
    next hin =>
      refine ha.entry ht hcache ?_
      rw [FatHeader.InTable, Nat.succ_mul]
      exact hin
    next hout => rfl

/-- **Clusters have sectors of their own**: on a volume whose data begins inside it nothing overflows, the clusters that
the code can give out lie in the data region and share no sector, and the allocator gives out such clusters, which were
free. -/
theorem clusters_apart {h : FatHeader} (hdata : h.geometry.data_region_lba.toNat ≤ h.totalSectors)
    (hspc : 1 ≤ h.sectorsPerCluster.toNat) :
    h.Exact ∧ h.totalSectors < 2 ^ 32 ∧ (∀ c : UInt16, h.HasCluster c.toNat → h.InDataRegion c) ∧
      (∀ c d : UInt16, h.HasCluster c.toNat → h.HasCluster d.toNat → c ≠ d →
        RangesApart (h.fat16ClusterToLba c).toNat h.spc (h.fat16ClusterToLba d).toNat h.spc) ∧
      ∀ fs fs' c, fs.header = h → fat16ClusterAlloc fs = some (some c, fs') →
        h.HasCluster c ∧ fs.linkAt c = FAT16_FREE_CLUSTER ∧
          (h.Tabled → fs.CacheAgrees → fs.fatAt c = FAT16_FREE_CLUSTER) := by
  refine ⟨FatHeader.exact_of_fits hdata, h.totalSectors_lt, fun c hc => hc.inDataRegion hdata,
    fun c d hc hd hne => ?_, fun fs fs' c hfs hrun => ?_⟩
  · have hsame : h.dataRegionLba ≤ h.totalSectors := h.geometry_dataRegion ▸ hdata
    have hnumbers : c.toNat ≠ d.toNat := fun heq => hne (UInt16.toNat.inj heq)
    rw [h.fat16ClusterToLba_toNat, h.fat16ClusterToLba_toNat]
    exact strides_apart (hc.mem_strides hsame) (hd.mem_strides hsame)
      (FatHeader.clusterToLba_disjoint hc.1 hd.1 hnumbers hspc hspc)
  · obtain ⟨hhas, hfree⟩ := fat16ClusterAlloc_returns hrun
    refine ⟨hfs ▸ hhas, hfree, fun ht ha => ?_⟩
    rw [← ha.linkAt_eq (hfs ▸ ht), hfree]

/-- A header with more sectors than there are cluster numbers. -/
def largeHeader : FatHeader where
  bytesPerSector := 512
  sectorsPerCluster := 1
  reservedSectorCount := 1
  numFats := 2
  rootEntryCount := 512
  totalSectors16 := 0
  fatSize16 := 256
  totalSectors32 := 70000

theorem clusters_apart_large :
    largeHeader.Exact ∧ largeHeader.totalSectors < 2 ^ 32 ∧
      (∀ c : UInt16, largeHeader.HasCluster c.toNat → largeHeader.InDataRegion c) ∧
      (∀ c d : UInt16, largeHeader.HasCluster c.toNat → largeHeader.HasCluster d.toNat → c ≠ d →
        RangesApart (largeHeader.fat16ClusterToLba c).toNat largeHeader.spc
          (largeHeader.fat16ClusterToLba d).toNat largeHeader.spc) ∧
      ∀ fs fs' c, fs.header = largeHeader → fat16ClusterAlloc fs = some (some c, fs') →
        largeHeader.HasCluster c ∧ fs.linkAt c = FAT16_FREE_CLUSTER ∧
          (largeHeader.Tabled → fs.CacheAgrees → fs.fatAt c = FAT16_FREE_CLUSTER) :=
  clusters_apart (by decide) (by decide)

end

end LizardOs.Fat
