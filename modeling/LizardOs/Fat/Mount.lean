import LizardOs.Fat.Faults
import LizardOs.Mm.Slab

/-!
# Mounting

`fat16_mount` of `fat16.c`.  The header is taken from the boot sector as it is, and two of its fields are divided by; the
first FAT is copied into memory from `kmalloc`, whose size classes end.  What the routine would have to check, and does
not, is `FatHeader.Acceptable`: it returns with a geometry the rest of the code can rely on exactly when the header meets
it (`fat16Mount_safe_iff`).
-/

namespace LizardOs.Fat

open LizardOs.Lib

/-- `struct block_dev`, as far as a mount looks at it, with the outcomes of the transfers and allocations to come. -/
structure Device where
  disk : ℕ → Buf
  readOnly : Bool
  ioFaults : List (IoOp → ℕ → Bool)
  allocFaults : List Bool

/-- `dev->ops->read(dev, sector, buf, 1)`; `none` is the error code. -/
def Device.read (dev : Device) (sector : ℕ) : Option Buf × Device :=
  match dev.ioFaults with
  | [] => (some (dev.disk sector), dev)
  | fault :: rest =>
      (if fault .read sector then none else some (dev.disk sector), { dev with ioFaults := rest })

/-- The volume on a device before its table was read. -/
def Device.volume (dev : Device) (header : FatHeader) : Fat16 where
  header := header
  disk := dev.disk
  fatCache := none
  readOnly := dev.readOnly
  ioFaults := dev.ioFaults
  allocFaults := dev.allocFaults

/-- The fields of the packed `struct fat_header`. -/
def FatHeader.ofBytes (b : Buf) : FatHeader where
  bytesPerSector := le16 b 11
  sectorsPerCluster := b 13
  reservedSectorCount := le16 b 14
  numFats := b 16
  rootEntryCount := le16 b 17
  totalSectors16 := le16 b 19
  fatSize16 := le16 b 22
  totalSectors32 := le32 b 32

/-- How a call of `fat16_mount` ends: it returns 0 or -1, the kernel stops, or a loop never exits. -/
inductive MountEnd where
  | mounted (fs : Fat16)
  | failed
  | divideError
  | panicked
  | hung

/-- The caches of `kmalloc_init`, which the search of `kmalloc` goes through. -/
def kmallocNodes : List Mm.CacheNode := Mm.Heap.KMALLOC_SIZES.reverse.map fun size => ⟨0, size, 0⟩

/-- The loop that reads the first FAT into RAM: `n` sectors left, the next one is `i`. -/
def loadFat : ℕ → ℕ → Buf → Fs (Option Buf)
  | 0, _, cache => pure (some cache)
  | n + 1, i, cache => do
      let fs ← Prog.get
      match ← blkDevRead (fs.header.fatStartLba + i) with
      | none => pure none
      | some buf => loadFat n (i + 1) (splice cache (i * fs.header.bps) buf FAT16_SECTOR_SIZE)

/-- The end of `fat16_mount`: a table that cannot be held in RAM stays on disk.  `memory` is what the memory held
before. -/
def loadCache (memory : Buf) : Fs Unit := do
  let fs ← Prog.get
  if ← zalloc then
    let cache ← loadFat fs.header.fatSize16.toNat 0 memory
    Prog.modify fun fs => { fs with fatCache := cache }
  else pure ()

/-- `fat16_mount`; without a device or a place for the volume it fails. -/
def fat16Mount (memory : Buf) : Option Device → MountEnd
  | none => .failed
  | some dev =>
      match dev.read 0 with
      | (none, _) => .failed
      | (some boot, dev) =>
          let header := FatHeader.ofBytes boot
          if header.bps = 0 then .divideError
          else if header.spc = 0 then .divideError
          else if (Mm.Heap.bestNode kmallocNodes header.fatBytes).isNone then .panicked
          else
            match loadCache memory (dev.volume header) with
            | none => .hung
            | some (_, fs) => .mounted fs

/-! ### What a mount is for -/

/-- The geometry the rest of the code relies on. -/
structure FatHeader.Geometry (h : FatHeader) : Prop where
  sector : h.bps = FAT16_SECTOR_SIZE
  cluster : 1 ≤ h.spc
  data : h.dataRegionLba ≤ h.totalSectors
  sectors : ∀ c, FAT16_CLUSTER_MIN ≤ c → c ≤ h.totalClusters + 1 → ∀ s < h.spc, h.clusterToLba c + s < h.totalSectors
  entries : ∀ c, FAT16_CLUSTER_MIN ≤ c → c ≤ h.totalClusters + 1 → 0 < h.numFats.toNat ∧ h.InTable c

/-- `fat16_mount` returns, and when it returns 0 the geometry is sound. -/
def MountEnd.Safe : MountEnd → Prop
  | .mounted fs => fs.header.Geometry
  | .failed => True
  | .divideError => False
  | .panicked => False
  | .hung => False

/-- Where the data clusters would begin with sectors of 512 bytes. -/
def FatHeader.metadataSectors (h : FatHeader) : ℕ :=
  h.reservedSectorCount.toNat + h.numFats.toNat * h.fatSize16.toNat + (h.rootEntryCount.toNat * 32 + 511) / 512

/-- The checks that `fat16_mount` leaves out. -/
structure FatHeader.Acceptable (h : FatHeader) : Prop where
  sector : h.bytesPerSector = 512
  cluster : h.sectorsPerCluster ≠ 0
  metadata : h.metadataSectors ≤ h.totalSectors
  heap : h.fatSize16.toNat ≤ 256
  covers : h.totalSectors - h.metadataSectors < h.sectorsPerCluster.toNat ∨
    0 < h.numFats.toNat ∧
      (h.totalSectors - h.metadataSectors) / h.sectorsPerCluster.toNat + 2 ≤ h.fatSize16.toNat * 256

/-! ### The search of `kmalloc` -/

/-- The search finds a cache exactly when one of them is large enough. -/
theorem bestNode_isNone_iff (l : List Mm.CacheNode) (size : ℕ) :
    (Mm.Heap.bestNode l size).isNone ↔ ∀ n ∈ l, n.size < size := by
  suffices hrun : ∀ best : Option Mm.CacheNode, (l.foldl (fun best node =>
      if size ≤ node.size ∧ best.all (fun b => decide (node.size < b.size)) = true then some node else best)
      best).isNone ↔ best.isNone ∧ ∀ n ∈ l, n.size < size by
    rw [Mm.Heap.bestNode, hrun none]
    exact ⟨fun h => h.2, fun h => ⟨rfl, h⟩⟩
  induction l with
  | nil => exact fun best => ⟨fun h => ⟨h, by simp⟩, fun h => h.1⟩
  | cons n l ih =>
    intro best
    rw [List.foldl_cons, ih, List.forall_mem_cons]
    constructor
    · rintro ⟨hnone, hrest⟩
      split at hnone
      · cases hnone
      · rename_i hskip
        cases best with
        | some b => cases hnone
        | none =>
          refine ⟨rfl, ?_, hrest⟩
          simpa using hskip
    · rintro ⟨hnone, hn, hrest⟩
      rw [if_neg (fun h => absurd h.1 (Nat.not_le.mpr hn))]
      exact ⟨hnone, hrest⟩

/-- The size classes end at 128 KiB. -/
theorem kmallocNodes_isNone_iff (size : ℕ) :
    (Mm.Heap.bestNode kmallocNodes size).isNone ↔ 131072 < size := by
  rw [bestNode_isNone_iff]
  constructor
  · intro h
    exact h ⟨0, 131072, 0⟩ (by simp [kmallocNodes, Mm.Heap.KMALLOC_SIZES])
  · intro h n hn
    have hlargest : ∀ n ∈ kmallocNodes, n.size ≤ 131072 := by decide
    exact Nat.lt_of_le_of_lt (hlargest n hn) h

/-! ### The table in RAM -/

/-- The loop returns; what it read repeats the sectors, and it changes no more than the faults to come. -/
theorem loadFat_spec (n : ℕ) : ∀ (fs : Fat16) (i : ℕ) (cache : Buf), ∃ r rest,
    loadFat n i cache fs = some (r, fs.withFaults rest) ∧
    ∀ out, r = some out → fs.header.bps = 512 →
      (∀ k < i * 512, cache k = fs.disk (fs.header.fatStartLba + k / 512) (k % 512)) →
      ∀ k < (i + n) * 512, out k = fs.disk (fs.header.fatStartLba + k / 512) (k % 512) := by
  induction n with
  | zero =>
    intro fs i cache
    refine ⟨some cache, fs.ioFaults, rfl, fun out hout _ hcache k hk => ?_⟩
    obtain rfl := Option.some.inj hout
    exact hcache k hk
  | succ n ih =>
    intro fs i cache
    obtain ⟨buf, rest, hread, hbuf⟩ := blkDevRead_cases fs (fs.header.fatStartLba + i)
    rcases hbuf with rfl | rfl
    · refine ⟨none, rest, ?_, fun out hout => by cases hout⟩
      simp only [loadFat, Prog.bind_apply, Prog.get_apply, Prog.obind_some, hread, Prog.pure_apply]
    · obtain ⟨r, rest', hrun, hspec⟩ := ih (fs.withFaults rest) (i + 1)
        (splice cache (i * fs.header.bps) (fs.disk (fs.header.fatStartLba + i)) FAT16_SECTOR_SIZE)
      refine ⟨r, rest', ?_, ?_⟩
      · simp only [loadFat, Prog.bind_apply, Prog.get_apply, Prog.obind_some, hread, hrun,
          Fat16.withFaults_withFaults]
      · intro out hout hbps hcache k hk
        have hlen : i + 1 + n = i + (n + 1) := by omega
        refine hspec out hout hbps ?_ k (hlen ▸ hk)
        intro j hj
        rw [Nat.succ_mul] at hj
        rw [hbps, FAT16_SECTOR_SIZE]
        by_cases hnew : i * 512 ≤ j
        · obtain ⟨m, rfl⟩ : ∃ m, j = i * 512 + m := ⟨j - i * 512, by omega⟩
          have hm : m < 512 := by omega
          rw [splice_inside hm, show (i * 512 + m) / 512 = i by omega, show (i * 512 + m) % 512 = m by omega]
          rfl
        · have hold : j < i * 512 := Nat.lt_of_not_le hnew
          rw [splice_outside (.inl hold)]
          exact hcache j hold

/-- **The table in RAM repeats the first FAT** after a mount, or it is not there. -/
theorem loadCache_spec (memory : Buf) (fs : Fat16) (hnone : fs.fatCache = none) :
    ∃ fs', loadCache memory fs = some ((), fs') ∧ fs'.header = fs.header ∧ fs'.disk = fs.disk ∧
      (fs.header.bps = 512 → fs'.CacheAgrees) := by
  have halloc : ∃ ok fs₁, zalloc fs = some (ok, fs₁) ∧ fs₁.header = fs.header ∧ fs₁.disk = fs.disk ∧
      fs₁.fatCache = none := by
    cases hfaults : fs.allocFaults with
    | nil => exact ⟨true, fs, by simp only [zalloc, hfaults], rfl, rfl, hnone⟩
    | cons fault rest =>
      exact ⟨!fault, { fs with allocFaults := rest }, by simp only [zalloc, hfaults], rfl, rfl, hnone⟩
  obtain ⟨ok, fs₁, halloc, hheader, hdisk, hcache₁⟩ := halloc
  cases ok with
  | false =>
    refine ⟨fs₁, ?_, hheader, hdisk, fun _ cache hcache => ?_⟩
    · simp only [loadCache, Prog.bind_apply, Prog.get_apply, Prog.obind_some, halloc, Bool.false_eq_true, if_false,
        Prog.pure_apply]
    · rw [hcache₁] at hcache
      cases hcache
  | true =>
    obtain ⟨r, rest, hload, hspec⟩ := loadFat_spec fs.header.fatSize16.toNat fs₁ 0 memory
    refine ⟨{ fs₁.withFaults rest with fatCache := r }, ?_, hheader, hdisk, ?_⟩
    · simp only [loadCache, Prog.bind_apply, Prog.get_apply, Prog.obind_some, halloc, if_true, hload,
        Prog.modify_apply]
    · intro hbps cache hcache j hj
      have hbytes : fs₁.header.fatBytes = fs.header.fatSize16.toNat * 512 := by
        rw [FatHeader.fatBytes, hheader, hbps]
      refine hspec cache hcache (hheader ▸ hbps) (fun k hk => by omega) j ?_
      rw [Nat.zero_add, ← hbytes]
      exact hj

/-- The two divisors are not zero and the table fits into a size class of `kmalloc`. -/
def FatHeader.Survives (h : FatHeader) : Prop := h.bps ≠ 0 ∧ h.spc ≠ 0 ∧ h.fatBytes ≤ 131072

/-- **How a mount ends** once the boot sector was read. -/
theorem fat16Mount_cases (memory : Buf) {dev dev' : Device} {boot : Buf} (hread : dev.read 0 = (some boot, dev')) :
    ((FatHeader.ofBytes boot).Survives ∧ ∃ fs, fat16Mount memory (some dev) = .mounted fs ∧
      fs.header = FatHeader.ofBytes boot ∧ fs.disk = dev'.disk ∧ (fs.header.bps = 512 → fs.CacheAgrees)) ∨
    (¬ (FatHeader.ofBytes boot).Survives ∧
      (fat16Mount memory (some dev) = .divideError ∨ fat16Mount memory (some dev) = .panicked)) := by
  set header := FatHeader.ofBytes boot with hheader
  have heq : fat16Mount memory (some dev) =
      if header.bps = 0 then .divideError
      else if header.spc = 0 then .divideError
      else if (Mm.Heap.bestNode kmallocNodes header.fatBytes).isNone then .panicked
      else
        match loadCache memory (dev'.volume header) with
        | none => .hung
        | some (_, fs) => .mounted fs := by
    rw [fat16Mount, hread]
  rw [heq]
  by_cases hbps : header.bps = 0
  · exact .inr ⟨fun h => h.1 hbps, .inl (if_pos hbps)⟩
  · by_cases hspc : header.spc = 0
    · exact .inr ⟨fun h => h.2.1 hspc, .inl (by rw [if_neg hbps, if_pos hspc])⟩
    · by_cases hlarge : 131072 < header.fatBytes
      · refine .inr ⟨fun h => absurd h.2.2 (Nat.not_le.mpr hlarge), .inr ?_⟩
        rw [if_neg hbps, if_neg hspc, if_pos ((kmallocNodes_isNone_iff _).mpr hlarge)]
      · obtain ⟨fs, hload, hh, hd, hcache⟩ := loadCache_spec memory (dev'.volume header) rfl
        refine .inl ⟨⟨hbps, hspc, Nat.le_of_not_lt hlarge⟩, fs, ?_, hh, hd, fun h => hcache (hh ▸ h)⟩
        rw [if_neg hbps, if_neg hspc, if_neg fun h => hlarge ((kmallocNodes_isNone_iff _).mp h), hload]

/-- The table in RAM that a mount leaves repeats the first FAT. -/
theorem fat16Mount_cacheAgrees {memory : Buf} {dev : Device} {fs : Fat16}
    (hmount : fat16Mount memory (some dev) = .mounted fs) (hbps : fs.header.bytesPerSector = 512) : fs.CacheAgrees := by
  have hsector : fs.header.bps = 512 := by
    rw [FatHeader.bps, hbps]
    rfl
  cases hread : (dev.read 0).1 with
  | none =>
    rw [fat16Mount, show dev.read 0 = (none, (dev.read 0).2) from Prod.ext hread rfl] at hmount
    cases hmount
  | some boot =>
    have hpair : dev.read 0 = (some boot, (dev.read 0).2) := Prod.ext hread rfl
    rcases fat16Mount_cases memory hpair with ⟨-, fs', hend, -, -, hcache⟩ | ⟨-, hend | hend⟩
    · rw [hmount] at hend
      obtain rfl := MountEnd.mounted.inj hend
      exact hcache hsector
    · rw [hmount] at hend
      cases hend
    · rw [hmount] at hend
      cases hend

/-! ### The geometry -/

theorem FatHeader.dataRegionLba_eq {h : FatHeader} (hbps : h.bps = 512) : h.dataRegionLba = h.metadataSectors := by
  rw [FatHeader.dataRegionLba, FatHeader.rootDirLba, FatHeader.rootDirSectors, FatHeader.metadataSectors,
    FatHeader.fatStartLba, hbps, FAT16_DIR_ENTRY_SIZE, Nat.add_sub_assoc (by decide)]

theorem FatHeader.totalSectors_lt (h : FatHeader) : h.totalSectors < 2 ^ 32 := by
  rw [FatHeader.totalSectors]
  split
  · exact Nat.lt_of_lt_of_le h.totalSectors16.toNat_lt (by decide)
  · exact h.totalSectors32.toNat_lt

/-- Without underflow `total_clusters` counts the clusters behind the metadata. -/
theorem FatHeader.totalClusters_eq {h : FatHeader} (hdata : h.dataRegionLba ≤ h.totalSectors) :
    h.totalClusters = (h.totalSectors - h.dataRegionLba) / h.spc := by
  have hlt := h.totalSectors_lt
  have hsub : (h.totalSectors + 2 ^ 32 - h.dataRegionLba) % 2 ^ 32 = h.totalSectors - h.dataRegionLba := by omega
  rw [FatHeader.totalClusters, hsub]

/-- The geometry is sound and the table fits exactly for the headers that pass the checks left out. -/
theorem FatHeader.geometry_iff (h : FatHeader) : h.Survives ∧ h.Geometry ↔ h.Acceptable := by
  constructor
  · rintro ⟨⟨-, -, hheap⟩, hgeo⟩
    have hbps : h.bps = 512 := hgeo.sector
    have hdata := hgeo.data
    have hclusters := FatHeader.totalClusters_eq hdata
    rw [FatHeader.dataRegionLba_eq hbps] at hdata hclusters
    have hspc : 0 < h.spc := hgeo.cluster
    refine ⟨UInt16.toNat.inj hbps, ?_, hdata, ?_, ?_⟩
    · intro hzero
      rw [FatHeader.spc, hzero] at hspc
      exact absurd hspc (by decide)
    · rw [FatHeader.fatBytes, hbps] at hheap
      omega
    · by_cases hnone : h.totalSectors - h.metadataSectors < h.sectorsPerCluster.toNat
      · exact .inl hnone
      · right
        have hpos : 0 < h.totalClusters := by
          rw [hclusters]
          exact Nat.div_pos (Nat.le_of_not_lt hnone) hspc
        obtain ⟨hfats, hlast⟩ := hgeo.entries (h.totalClusters + 1) (by rw [FAT16_CLUSTER_MIN]; omega) (Nat.le_refl _)
        refine ⟨hfats, ?_⟩
        rw [FatHeader.InTable, FAT16_FAT_ENTRY_SIZE, FatHeader.fatBytes, hbps, hclusters] at hlast
        change (h.totalSectors - h.metadataSectors) / h.spc + 2 ≤ _
        omega
  · intro hacc
    have hbps : h.bps = 512 := by
      rw [FatHeader.bps, hacc.sector]
      rfl
    have hspc : 0 < h.spc := by
      refine Nat.pos_of_ne_zero fun hzero => hacc.cluster ?_
      exact UInt8.toNat.inj hzero
    have hmeta := FatHeader.dataRegionLba_eq hbps
    have hdata : h.dataRegionLba ≤ h.totalSectors := by
      rw [hmeta]
      exact hacc.metadata
    have hclusters := FatHeader.totalClusters_eq hdata
    have hheap := hacc.heap
    refine ⟨⟨by omega, by omega, ?_⟩, hbps, hspc, hdata, ?_, ?_⟩
    · rw [FatHeader.fatBytes, hbps]
      omega
    · intro c hmin hc s hs
      have hmul : (c - 2 + 1) * h.spc ≤ h.totalSectors - h.dataRegionLba := by
        have hle : c - 2 + 1 ≤ (h.totalSectors - h.dataRegionLba) / h.spc := by
          rw [← hclusters]
          rw [FAT16_CLUSTER_MIN] at hmin
          omega
        exact (Nat.mul_le_mul_right _ hle).trans (Nat.div_mul_le_self _ _)
      rw [Nat.succ_mul] at hmul
      rw [FatHeader.clusterToLba, if_neg (Nat.not_lt.mpr hmin), FAT16_CLUSTER_MIN]
      omega
    · intro c hmin hc
      rw [FAT16_CLUSTER_MIN] at hmin
      have hsome : 0 < h.totalClusters := by omega
      rcases hacc.covers with hnone | ⟨hfats, hcovers⟩
      · have hzero : (h.totalSectors - h.metadataSectors) / h.spc = 0 := Nat.div_eq_of_lt hnone
        rw [hclusters, hmeta, hzero] at hsome
        omega
      · refine ⟨hfats, ?_⟩
        rw [hclusters, hmeta] at hc
        change (h.totalSectors - h.metadataSectors) / h.spc + 2 ≤ _ at hcovers
        rw [FatHeader.InTable, FAT16_FAT_ENTRY_SIZE, FatHeader.fatBytes, hbps]
        omega

/-- **When a mount is safe.**  `fat16_mount` returns, and with a sound geometry when it returns 0, exactly when it has no
boot sector to look at or the header in it passes every check that the routine leaves out. -/
theorem fat16Mount_safe_iff (memory : Buf) (dev : Option Device) :
    (fat16Mount memory dev).Safe ↔
      ∀ d, dev = some d → ∀ boot, (d.read 0).1 = some boot → (FatHeader.ofBytes boot).Acceptable := by
  cases dev with
  | none =>
    refine ⟨fun _ d hd => ?_, fun _ => trivial⟩
    cases hd
  | some dev =>
    cases hread : (dev.read 0).1 with
    | none =>
      have hend : fat16Mount memory (some dev) = .failed := by
        rw [fat16Mount, show dev.read 0 = (none, (dev.read 0).2) from Prod.ext hread rfl]
      rw [hend]
      refine ⟨fun _ d hd boot hboot => ?_, fun _ => trivial⟩
      obtain rfl := Option.some.inj hd
      rw [hread] at hboot
      cases hboot
    | some boot =>
      have hpair : dev.read 0 = (some boot, (dev.read 0).2) := Prod.ext hread rfl
      have hiff : (fat16Mount memory (some dev)).Safe ↔ (FatHeader.ofBytes boot).Acceptable := by
        rw [← FatHeader.geometry_iff]
        rcases fat16Mount_cases memory hpair with ⟨hsurvives, fs, hend, hheader, -, -⟩ | ⟨hdies, hend⟩
        · rw [hend, ← hheader]
          exact ⟨fun h => ⟨hheader ▸ hsurvives, h⟩, fun h => h.2⟩
        · rcases hend with hend | hend
          · rw [hend]
            exact ⟨fun h => h.elim, fun h => hdies h.1⟩
          · rw [hend]
            exact ⟨fun h => h.elim, fun h => hdies h.1⟩
      rw [hiff]
      constructor
      · intro hacc d hd boot' hboot
        obtain rfl := Option.some.inj hd
        rw [hread] at hboot
        obtain rfl := Option.some.inj hboot
        exact hacc
      · intro hall
        exact hall dev rfl boot hread

/-- A blank disk, whose boot sector is all zeros. -/
def blankDevice : Device where
  disk := fun _ _ => 0
  readOnly := false
  ioFaults := []
  allocFaults := []

/-- Mounting a blank disk divides by zero. -/
theorem not_fat16Mount_safe_blank : ¬ (fat16Mount (fun _ => 0) (some blankDevice)).Safe := by
  have hend : fat16Mount (fun _ => 0) (some blankDevice) = .divideError := rfl
  rw [hend]
  exact id

end LizardOs.Fat
