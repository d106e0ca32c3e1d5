import LizardOs.Fat.Types
import LizardOs.Lib.Chain

/-!
# The file allocation table

`fat16_fat_get`, `fat16_fat_set`, `fat16_next_cluster`, `fat16_cluster_alloc` and `fat16_chain_free` of
`fat16_helpers.c`.  A table update rewrites one sector of every FAT copy and then the copy in RAM; a failure
in between leaves the copies different, which is why the updates are modelled sector by sector.
-/

namespace LizardOs.Fat

open LizardOs.Lib

/-- More cluster steps than any walk over distinct clusters takes: a walk of an unchanging table that is
still going after these has come back to a cluster it met before and never ends. -/
def CLUSTER_STEPS : ℕ := 65536

/-- What `fat16_fat_get` does with an entry that is not in RAM. -/
def fatFromDisk (sector off : ℕ) : Fs (Option ℕ) := do
  match ← blkDevRead sector with
  | none => pure none
  | some buf => pure (some (le16 buf off).toNat)

/-- `fat16_fat_get`: the table entry of a cluster, from RAM when the table is cached. -/
def fat16FatGet (cluster : ℕ) : Fs (Option ℕ) := do
  let fs ← Prog.get
  let byte := cluster * FAT16_FAT_ENTRY_SIZE
  let fromDisk := fatFromDisk (fs.header.fatStartLba + byte / fs.header.bps) (byte % fs.header.bps)
  match fs.fatCache with
  | none => fromDisk
  | some cache =>
      if byte + FAT16_FAT_ENTRY_SIZE ≤ fs.header.fatBytes then pure (some (le16 cache byte).toNat)
      else fromDisk

/-- The two bytes of a table entry. -/
def fatEntryBytes (value : ℕ) : Buf := fun j => leByte value j

/-- The loop of `fat16_fat_set` over the FAT copies: `n` copies left, the next one is `f`. -/
def fatSetCopies (byte value : ℕ) : ℕ → ℕ → Fs Bool
  | 0, _ => pure true
  | n + 1, f => do
      let fs ← Prog.get
      let sector := fs.header.fatStartLba + f * fs.header.fatSize16.toNat + byte / fs.header.bps
      let off := byte % fs.header.bps
      match ← blkDevRead sector with
      | none => pure false
      | some buf =>
          if ← blkDevWrite sector (splice buf off (fatEntryBytes value) FAT16_FAT_ENTRY_SIZE) then
            fatSetCopies byte value n (f + 1)
          else pure false

/-- The last step of `fat16_fat_set`: mirror the value into the table in RAM. -/
def Fat16.setCache (fs : Fat16) (byte value : ℕ) : Fat16 :=
  match fs.fatCache with
  | none => fs
  | some cache =>
      if byte + FAT16_FAT_ENTRY_SIZE ≤ fs.header.fatBytes then
        { fs with
          fatCache := some (splice cache byte (fatEntryBytes value) FAT16_FAT_ENTRY_SIZE) }
      else fs

/-- `fat16_fat_set`: write the value into every FAT copy, then into RAM. -/
def fat16FatSet (cluster value : ℕ) : Fs Bool := do
  let fs ← Prog.get
  let byte := cluster * FAT16_FAT_ENTRY_SIZE
  if ← fatSetCopies byte value fs.header.numFats.toNat 0 then
    Prog.modify fun fs => fs.setCache byte value
    pure true
  else pure false

/-- `fat16_next_cluster`: an unreadable link reads as the end of the chain. -/
def fat16NextCluster (cluster : ℕ) : Fs ℕ := do
  match ← fat16FatGet cluster with
  | none => pure FAT16_EOC
  | some next => pure next

/-- The search loop of `fat16_cluster_alloc`: `n` clusters left, the next candidate is `c`. -/
def clusterAllocFrom : ℕ → ℕ → Fs (Option ℕ)
  | 0, _ => pure none
  | n + 1, c => do
      match ← fat16FatGet c with
      | none => pure none
      | some v =>
          if v = FAT16_FREE_CLUSTER then
            if ← fat16FatSet c FAT16_EOC then pure (some c) else pure none
          else clusterAllocFrom n (c + 1)

/-- `fat16_cluster_alloc`: the first free cluster, marked end-of-chain; `none` when the volume is full. -/
def fat16ClusterAlloc : Fs (Option ℕ) := do
  let fs ← Prog.get
  clusterAllocFrom (fs.header.lastCluster + 1 - FAT16_CLUSTER_MIN) FAT16_CLUSTER_MIN

/-- The loop of `fat16_chain_free`. -/
def chainFreeFrom : ℕ → ℕ → Fs Bool
  | 0, _ => Prog.diverge
  | n + 1, c =>
      if fat16ClusterValid c then do
        match ← fat16FatGet c with
        | none => pure false
        | some next =>
            if ← fat16FatSet c FAT16_FREE_CLUSTER then chainFreeFrom n next else pure false
      else pure true

/-- `fat16_chain_free`: free every cluster of the chain. -/
def fat16ChainFree (first : ℕ) : Fs Bool := chainFreeFrom CLUSTER_STEPS first

/-! ### The table as a function -/

/-- A volume whose header describes a FAT16 layout: 512-byte sectors, at least one sector per cluster, at
least one FAT copy, and a FAT with an entry for every cluster the allocator considers. -/
structure FatHeader.Sound (h : FatHeader) : Prop where
  bps : h.bytesPerSector = 512
  spc : 0 < h.spc
  fats : 0 < h.numFats.toNat
  covers : (h.lastCluster + 1) * FAT16_FAT_ENTRY_SIZE ≤ h.fatBytes

/-- What the table needs of a header: sectors of the size of the buffers, and a FAT copy. -/
structure FatHeader.Tabled (h : FatHeader) : Prop where
  bps : h.bytesPerSector = 512
  fats : 0 < h.numFats.toNat

/-- The table has an entry for the cluster. -/
def FatHeader.InTable (h : FatHeader) (c : ℕ) : Prop := (c + 1) * FAT16_FAT_ENTRY_SIZE ≤ h.fatBytes

instance (h : FatHeader) (c : ℕ) : Decidable (h.InTable c) :=
  inferInstanceAs (Decidable ((c + 1) * FAT16_FAT_ENTRY_SIZE ≤ h.fatBytes))

namespace Fat16

/-- The table entry of a cluster on disk, in FAT copy `f`. -/
def copyAt (fs : Fat16) (f c : ℕ) : ℕ :=
  (le16 (fs.disk (fs.header.fatStartLba + f * fs.header.fatSize16.toNat + c * 2 / 512)) (c * 2 % 512)).toNat

/-- The table entry of a cluster on disk, in the first FAT copy. -/
def fatAt (fs : Fat16) (c : ℕ) : ℕ :=
  (le16 (fs.disk (fs.header.fatStartLba + c * 2 / 512)) (c * 2 % 512)).toNat

/-- The table in RAM repeats the first FAT copy. -/
def CacheAgrees (fs : Fat16) : Prop :=
  ∀ cache, fs.fatCache = some cache → ∀ j < fs.header.fatBytes,
    cache j = fs.disk (fs.header.fatStartLba + j / 512) (j % 512)

/-- A mounted volume in a run without faults: sound header, cached table in step with the disk. -/
structure Mounted (fs : Fat16) : Prop where
  sound : fs.header.Sound
  cache : fs.CacheAgrees
  noFaults : fs.NoFaults

/-- Write a value into the table entry of copies `f`, `f + 1`, …, `f + n - 1`. -/
def setFatCopies (fs : Fat16) (c value : ℕ) : ℕ → ℕ → Fat16
  | 0, _ => fs
  | n + 1, f =>
      let sector := fs.header.fatStartLba + f * fs.header.fatSize16.toNat + c * 2 / 512
      setFatCopies
        (fs.setSector sector (splice (fs.disk sector) (c * 2 % 512) (fatEntryBytes value) 2))
        c value n (f + 1)

/-- The volume after a successful table update. -/
def setFat (fs : Fat16) (c value : ℕ) : Fat16 :=
  (fs.setFatCopies c value fs.header.numFats.toNat 0).setCache (c * 2) value

theorem copyAt_zero (fs : Fat16) (c : ℕ) : fs.copyAt 0 c = fs.fatAt c := by
  rw [copyAt, fatAt, Nat.zero_mul, Nat.add_zero]

end Fat16

theorem FatHeader.Tabled.bps_eq {h : FatHeader} (ht : h.Tabled) : h.bps = 512 := by
  simp [FatHeader.bps, ht.bps]

theorem FatHeader.Tabled.fatBytes_eq {h : FatHeader} (ht : h.Tabled) : h.fatBytes = h.fatSize16.toNat * 512 := by
  rw [FatHeader.fatBytes, ht.bps_eq]

/-- An entry of the table lies inside the FAT. -/
theorem FatHeader.InTable.entry_lt {h : FatHeader} {c : ℕ} (hc : h.InTable c) (ht : h.Tabled) :
    c * 2 + 2 ≤ h.fatSize16.toNat * 512 := by
  have hin : (c + 1) * FAT16_FAT_ENTRY_SIZE ≤ h.fatBytes := hc
  rw [FAT16_FAT_ENTRY_SIZE, ht.fatBytes_eq] at hin
  omega

theorem FatHeader.Sound.tabled {h : FatHeader} (hs : h.Sound) : h.Tabled := ⟨hs.bps, hs.fats⟩

theorem FatHeader.Sound.bps_eq {h : FatHeader} (hs : h.Sound) : h.bps = 512 := hs.tabled.bps_eq

theorem FatHeader.Sound.inTable {h : FatHeader} (hs : h.Sound) {c : ℕ} (hc : c ≤ h.lastCluster) : h.InTable c := by
  have hcovers := hs.covers
  have hmul : (c + 1) * FAT16_FAT_ENTRY_SIZE ≤ (h.lastCluster + 1) * FAT16_FAT_ENTRY_SIZE :=
    Nat.mul_le_mul_right _ (Nat.succ_le_succ hc)
  exact hmul.trans hcovers

/-- Below the last cluster a table entry lies inside the FAT. -/
theorem FatHeader.Sound.entry_lt {h : FatHeader} (hs : h.Sound) {c : ℕ} (hc : c ≤ h.lastCluster) :
    c * 2 + 2 ≤ h.fatSize16.toNat * 512 := (hs.inTable hc).entry_lt hs.tabled

/-- One sector of a FAT copy lies before the root directory. -/
theorem FatHeader.copy_lt_root {h : FatHeader} {f s : ℕ} (hf : f < h.numFats.toNat)
    (hs : s < h.fatSize16.toNat) :
    h.fatStartLba + f * h.fatSize16.toNat + s < h.rootDirLba := by
  have h1 : (f + 1) * h.fatSize16.toNat ≤ h.numFats.toNat * h.fatSize16.toNat :=
    Nat.mul_le_mul_right _ hf
  have h2 : (f + 1) * h.fatSize16.toNat = f * h.fatSize16.toNat + h.fatSize16.toNat := by ring
  unfold FatHeader.rootDirLba
  omega

/-! ### Table updates -/

namespace Fat16

theorem setFatCopies_frame (c value : ℕ) (n : ℕ) : ∀ (fs : Fat16) (f : ℕ),
    (fs.setFatCopies c value n f).header = fs.header ∧
    (fs.setFatCopies c value n f).fatCache = fs.fatCache ∧
    (fs.setFatCopies c value n f).readOnly = fs.readOnly ∧
    (fs.setFatCopies c value n f).ioFaults = fs.ioFaults ∧
    (fs.setFatCopies c value n f).allocFaults = fs.allocFaults := by
  induction n with
  | zero => intro fs f; exact ⟨rfl, rfl, rfl, rfl, rfl⟩
  | succ n ih => intro fs f; exact ih _ _

/-- A sector that belongs to none of the updated copies keeps its contents. -/
theorem setFatCopies_disk (c value : ℕ) {lba : ℕ} (n : ℕ) : ∀ (fs : Fat16) (f : ℕ),
    (∀ k, f ≤ k → k < f + n →
      lba ≠ fs.header.fatStartLba + k * fs.header.fatSize16.toNat + c * 2 / 512) →
    (fs.setFatCopies c value n f).disk lba = fs.disk lba := by
  induction n with
  | zero => intro fs f _; rfl
  | succ n ih =>
    intro fs f h
    rw [setFatCopies, ih]
    · exact setSector_disk_ne (h f (by omega) (by omega)) _
    · intro k hk hk'
      exact h k (by omega) (by omega)

theorem setCache_disk (fs : Fat16) (byte value : ℕ) : (fs.setCache byte value).disk = fs.disk := by
  unfold setCache
  split
  · rfl
  · split <;> rfl

theorem setCache_header (fs : Fat16) (byte value : ℕ) :
    (fs.setCache byte value).header = fs.header := by
  unfold setCache
  split
  · rfl
  · split <;> rfl

theorem setCache_readOnly (fs : Fat16) (byte value : ℕ) :
    (fs.setCache byte value).readOnly = fs.readOnly := by
  unfold setCache
  split
  · rfl
  · split <;> rfl

theorem setCache_noFaults {fs : Fat16} (h : fs.NoFaults) (byte value : ℕ) :
    (fs.setCache byte value).NoFaults := by
  unfold setCache
  split
  · exact h
  · split
    · exact ⟨h.io, h.alloc⟩
    · exact h

@[simp] theorem setFat_header (fs : Fat16) (c value : ℕ) :
    (fs.setFat c value).header = fs.header := by
  rw [setFat, setCache_header]
  exact (setFatCopies_frame c value _ fs 0).1

@[simp] theorem setFat_readOnly (fs : Fat16) (c value : ℕ) :
    (fs.setFat c value).readOnly = fs.readOnly := by
  rw [setFat, setCache_readOnly]
  exact (setFatCopies_frame c value _ fs 0).2.2.1

variable {fs : Fat16} {c value : ℕ}

theorem setFat_ioFaults (fs : Fat16) (c value : ℕ) : (fs.setFat c value).ioFaults = fs.ioFaults := by
  have hcache : ∀ (fs : Fat16) (byte : ℕ), (fs.setCache byte value).ioFaults = fs.ioFaults := by
    intro fs byte
    unfold setCache
    split
    · rfl
    · split <;> rfl
  obtain ⟨-, -, -, hio, -⟩ := setFatCopies_frame c value fs.header.numFats.toNat fs 0
  rw [setFat, hcache, hio]

theorem setFat_noFaults (h : fs.NoFaults) : (fs.setFat c value).NoFaults := by
  obtain ⟨-, -, -, h4, h5⟩ := setFatCopies_frame c value fs.header.numFats.toNat fs 0
  exact setCache_noFaults ⟨h4.trans h.io, h5.trans h.alloc⟩ _ _

/-- A table update leaves everything from the root directory on alone. -/
theorem setFat_disk_of_root_le (hs : fs.header.Sound) (hc : c ≤ fs.header.lastCluster) {lba : ℕ}
    (hlba : fs.header.rootDirLba ≤ lba) : (fs.setFat c value).disk lba = fs.disk lba := by
  rw [setFat, setCache_disk]
  apply setFatCopies_disk
  intro k _ hk
  have h1 := hs.entry_lt hc
  have h2 := FatHeader.copy_lt_root (h := fs.header) (f := k) (s := c * 2 / 512) (by omega)
    (by omega)
  omega

/-- Two FAT copies have no sector in common. -/
theorem copies_apart {h : FatHeader} {f k s t : ℕ} (hne : f ≠ k) (hs : s < h.fatSize16.toNat)
    (ht : t < h.fatSize16.toNat) :
    h.fatStartLba + f * h.fatSize16.toNat + s ≠ h.fatStartLba + k * h.fatSize16.toNat + t := by
  rcases Nat.lt_or_gt_of_ne hne with hlt | hlt
  · have hmul : (f + 1) * h.fatSize16.toNat ≤ k * h.fatSize16.toNat := Nat.mul_le_mul_right _ hlt
    rw [Nat.succ_mul] at hmul
    omega
  · have hmul : (k + 1) * h.fatSize16.toNat ≤ f * h.fatSize16.toNat := Nat.mul_le_mul_right _ hlt
    rw [Nat.succ_mul] at hmul
    omega

/-- The updated copies: one entry spliced into one sector of each. -/
theorem setFatCopies_disk_copy {k s : ℕ} (c value n : ℕ) : ∀ (fs : Fat16) (f : ℕ), f ≤ k → k < f + n →
    s < fs.header.fatSize16.toNat → c * 2 / 512 < fs.header.fatSize16.toNat →
    (fs.setFatCopies c value n f).disk (fs.header.fatStartLba + k * fs.header.fatSize16.toNat + s) =
      if s = c * 2 / 512 then
        splice (fs.disk (fs.header.fatStartLba + k * fs.header.fatSize16.toNat + s)) (c * 2 % 512)
          (fatEntryBytes value) 2
      else fs.disk (fs.header.fatStartLba + k * fs.header.fatSize16.toNat + s) := by
  induction n with
  | zero =>
    intro fs f hf hk
    omega
  | succ n ih =>
    intro fs f hf hk hs hc
    rw [setFatCopies]
    by_cases hfk : f = k
    · -- the later copies start behind every sector of this one
      subst hfk
      rw [setFatCopies_disk]
      · by_cases hsec : s = c * 2 / 512
        · rw [if_pos hsec, hsec, setSector_disk_self]
        · rw [if_neg hsec]
          exact setSector_disk_ne (by omega) _
      · intro j hj _
        exact copies_apart (h := fs.header) (by omega) hs hc
    · have hkeep : (fs.header.fatStartLba + k * fs.header.fatSize16.toNat + s) ≠
          fs.header.fatStartLba + f * fs.header.fatSize16.toNat + c * 2 / 512 :=
        copies_apart (fun h => hfk h.symm) hs hc
      have hrest := ih (fs.setSector (fs.header.fatStartLba + f * fs.header.fatSize16.toNat + c * 2 / 512)
        (splice (fs.disk (fs.header.fatStartLba + f * fs.header.fatSize16.toNat + c * 2 / 512)) (c * 2 % 512)
          (fatEntryBytes value) 2)) (f + 1) (by omega) (by omega) hs hc
      rw [setSector_header, setSector_disk_ne hkeep] at hrest
      exact hrest

/-- **A FAT copy after an update:** one entry spliced into one sector. -/
theorem setFat_disk_copy (ht : fs.header.Tabled) (hc : fs.header.InTable c) {f s : ℕ}
    (hf : f < fs.header.numFats.toNat) (hsec : s < fs.header.fatSize16.toNat) :
    (fs.setFat c value).disk (fs.header.fatStartLba + f * fs.header.fatSize16.toNat + s) =
      if s = c * 2 / 512 then
        splice (fs.disk (fs.header.fatStartLba + f * fs.header.fatSize16.toNat + s)) (c * 2 % 512)
          (fatEntryBytes value) 2
      else fs.disk (fs.header.fatStartLba + f * fs.header.fatSize16.toNat + s) := by
  have hbyte := hc.entry_lt ht
  rw [setFat, setCache_disk]
  exact setFatCopies_disk_copy c value _ fs 0 (Nat.zero_le f) (by omega) hsec (by omega)

/-- **One entry changes, the others stay,** in every copy. -/
theorem copyAt_setFat (ht : fs.header.Tabled) (hc : fs.header.InTable c) (hv : value < 65536) {f d : ℕ}
    (hf : f < fs.header.numFats.toNat) (hd : fs.header.InTable d) :
    (fs.setFat c value).copyAt f d = if d = c then value else fs.copyAt f d := by
  have hbc := hc.entry_lt ht
  have hbd := hd.entry_lt ht
  simp only [copyAt, setFat_header]
  rw [setFat_disk_copy ht hc hf (by omega)]
  by_cases hdc : d = c
  · subst hdc
    rw [if_pos rfl, if_pos rfl]
    exact le16_of_bytes hv (splice_inside (j := 0) (by omega)) (splice_inside (j := 1) (by omega))
  · rw [if_neg hdc]
    split
    · rename_i hsec
      congr 1
      apply le16_congr
      · exact splice_outside (by omega)
      · exact splice_outside (by omega)
    · rfl

theorem fatAt_setFat_inTable (ht : fs.header.Tabled) (hc : fs.header.InTable c) (hv : value < 65536) {d : ℕ}
    (hd : fs.header.InTable d) : (fs.setFat c value).fatAt d = if d = c then value else fs.fatAt d := by
  rw [← copyAt_zero, copyAt_setFat ht hc hv ht.fats hd, copyAt_zero]

theorem fatAt_setFat (hs : fs.header.Sound) (hc : c ≤ fs.header.lastCluster) (hv : value < 65536)
    {d : ℕ} (hd : d ≤ fs.header.lastCluster) :
    (fs.setFat c value).fatAt d = if d = c then value else fs.fatAt d :=
  fatAt_setFat_inTable hs.tabled (hs.inTable hc) hv (hs.inTable hd)

theorem setFat_cacheAgrees_inTable (ht : fs.header.Tabled) (hc : fs.header.InTable c) (h : fs.CacheAgrees) :
    (fs.setFat c value).CacheAgrees := by
  have hbyte := hc.entry_lt ht
  have hbytes := ht.fatBytes_eq
  intro cache hcache j hj
  rw [setFat_header] at hj ⊢
  have hcopy : (fs.setFat c value).disk (fs.header.fatStartLba + 0 * fs.header.fatSize16.toNat + j / 512) = _ :=
    setFat_disk_copy ht hc ht.fats (by omega)
  rw [Nat.zero_mul, Nat.add_zero] at hcopy
  rw [hcopy]
  obtain ⟨hhdr, hfc, -⟩ := setFatCopies_frame c value fs.header.numFats.toNat fs 0
  cases hold : fs.fatCache with
  | none =>
    rw [setFat, setCache, hfc, hold] at hcache
    rw [hfc, hold] at hcache
    cases hcache
  | some old =>
    rw [setFat, setCache, hfc, hold] at hcache
    simp only [hhdr] at hcache
    rw [if_pos (by simp only [FAT16_FAT_ENTRY_SIZE]; omega)] at hcache
    obtain rfl := Option.some.inj hcache
    have hj' := h old hold j hj
    by_cases hin : c * 2 ≤ j ∧ j < c * 2 + 2
    · rw [if_pos (by omega)]
      obtain ⟨k, rfl⟩ : ∃ k, j = c * 2 + k := ⟨j - c * 2, by omega⟩
      rw [FAT16_FAT_ENTRY_SIZE, splice_inside (by omega),
        show (c * 2 + k) % 512 = c * 2 % 512 + k by omega, splice_inside (by omega)]
    · rw [splice_outside (by simp only [FAT16_FAT_ENTRY_SIZE]; omega), hj']
      split
      · rw [splice_outside (by omega)]
      · rfl

theorem setFat_cacheAgrees (hs : fs.header.Sound) (hc : c ≤ fs.header.lastCluster)
    (h : fs.CacheAgrees) : (fs.setFat c value).CacheAgrees :=
  setFat_cacheAgrees_inTable hs.tabled (hs.inTable hc) h

theorem setFat_mounted (h : fs.Mounted) (hc : c ≤ fs.header.lastCluster) :
    (fs.setFat c value).Mounted where
  sound := by rw [setFat_header]; exact h.sound
  cache := setFat_cacheAgrees h.sound hc h.cache
  noFaults := setFat_noFaults h.noFaults

theorem setSector_fatAt (hs : fs.header.Sound) {lba : ℕ} (hlba : fs.header.rootDirLba ≤ lba)
    (buf : Buf) (hc : c ≤ fs.header.lastCluster) : (fs.setSector lba buf).fatAt c = fs.fatAt c := by
  have h1 := hs.entry_lt hc
  have h2 := FatHeader.copy_lt_root (h := fs.header) (f := 0) (s := c * 2 / 512) hs.fats (by omega)
  unfold fatAt
  rw [setSector_header, setSector_disk_ne (by omega)]

theorem setSector_mounted (h : fs.Mounted) {lba : ℕ} (hlba : fs.header.rootDirLba ≤ lba)
    (buf : Buf) : (fs.setSector lba buf).Mounted where
  sound := h.sound
  cache := by
    intro cache hcache j hj
    have hbytes : fs.header.fatBytes = fs.header.fatSize16.toNat * 512 := by
      simp [FatHeader.fatBytes, h.sound.bps_eq]
    rw [setSector_header] at hj ⊢
    have h2 := FatHeader.copy_lt_root (h := fs.header) (f := 0) (s := j / 512) h.sound.fats
      (by omega)
    rw [setSector_disk_ne (by omega)]
    exact h.cache cache hcache j hj
  noFaults := setSector_noFaults h.noFaults lba buf

end Fat16

/-! ### The table routines on a mounted volume -/

theorem fatSetCopies_ok {c value : ℕ} (n : ℕ) : ∀ {fs : Fat16} (f : ℕ), fs.ioFaults = [] →
    fs.header.bps = 512 →
    fatSetCopies (c * 2) value n f fs = some (true, fs.setFatCopies c value n f) := by
  induction n with
  | zero => intro fs f _ _; rfl
  | succ n ih =>
    intro fs f hf hb
    have hf' : ∀ lba buf, (fs.setSector lba buf).ioFaults = [] := fun _ _ => hf
    simp only [fatSetCopies, Prog.bind_apply, Prog.get_apply, Prog.obind_some, blkDevRead_io hf,
      blkDevWrite_io hf, if_true, hb]
    rw [ih (f + 1) (hf' _ _) hb]
    rfl

theorem fat16FatSet_tabled {fs : Fat16} (hf : fs.ioFaults = []) (ht : fs.header.Tabled) (c value : ℕ) :
    fat16FatSet c value fs = some (true, fs.setFat c value) := by
  have hcopies : fatSetCopies (c * 2) value fs.header.numFats.toNat 0 fs =
      some (true, fs.setFatCopies c value fs.header.numFats.toNat 0) :=
    fatSetCopies_ok _ 0 hf ht.bps_eq
  simp only [fat16FatSet, Prog.bind_apply, Prog.get_apply, Prog.obind_some, FAT16_FAT_ENTRY_SIZE,
    hcopies, if_true, Prog.modify_apply, Prog.pure_apply]
  rfl

theorem fat16FatSet_ok {fs : Fat16} (h : fs.Mounted) (c value : ℕ) :
    fat16FatSet c value fs = some (true, fs.setFat c value) :=
  fat16FatSet_tabled h.noFaults.io h.sound.tabled c value

/-- The table in RAM serves a lookup without a transfer. -/
theorem fat16FatGet_fromCache {fs : Fat16} {cache : Buf} (hcache : fs.fatCache = some cache) {c : ℕ}
    (hc : fs.header.InTable c) : fat16FatGet c fs = some (some (le16 cache (c * 2)).toNat, fs) := by
  have hin : c * FAT16_FAT_ENTRY_SIZE + FAT16_FAT_ENTRY_SIZE ≤ fs.header.fatBytes := by
    rw [← Nat.succ_mul]
    exact hc
  simp only [fat16FatGet, fatFromDisk, Prog.bind_apply, Prog.get_apply, Prog.obind_some, hcache, Prog.ite_apply,
    if_pos hin, Prog.pure_apply]
  rfl

/-- An entry that is not in RAM is read from the disk. -/
theorem fat16FatGet_fromDisk {fs : Fat16} (hf : fs.ioFaults = []) (hb : fs.header.bps = 512) {c : ℕ}
    (hoff : fs.fatCache = none ∨ ¬ fs.header.InTable c) : fat16FatGet c fs = some (some (fs.fatAt c), fs) := by
  have hout : ∀ cache, fs.fatCache = some cache →
      ¬ c * FAT16_FAT_ENTRY_SIZE + FAT16_FAT_ENTRY_SIZE ≤ fs.header.fatBytes := by
    intro cache hcache
    rw [← Nat.succ_mul]
    refine hoff.resolve_left fun hnone => ?_
    rw [hnone] at hcache
    cases hcache
  cases hcache : fs.fatCache with
  | none =>
    simp only [fat16FatGet, fatFromDisk, Prog.bind_apply, Prog.get_apply, Prog.obind_some, hcache, blkDevRead_io hf,
      Prog.pure_apply, hb]
    rfl
  | some cache =>
    simp only [fat16FatGet, fatFromDisk, Prog.bind_apply, Prog.get_apply, Prog.obind_some, hcache, Prog.ite_apply,
      if_neg (hout cache hcache), blkDevRead_io hf, Prog.pure_apply, hb]
    rfl

theorem Fat16.CacheAgrees.entry {fs : Fat16} {cache : Buf} (ha : fs.CacheAgrees) (ht : fs.header.Tabled)
    (hcache : fs.fatCache = some cache) {c : ℕ} (hc : fs.header.InTable c) :
    (le16 cache (c * 2)).toNat = fs.fatAt c := by
  have hbyte := hc.entry_lt ht
  have hbytes := ht.fatBytes_eq
  rw [Fat16.fatAt]
  congr 1
  apply le16_congr
  · exact ha cache hcache (c * 2) (by omega)
  · rw [ha cache hcache (c * 2 + 1) (by omega),
      show (c * 2 + 1) / 512 = c * 2 / 512 by omega,
      show (c * 2 + 1) % 512 = c * 2 % 512 + 1 by omega]

theorem fat16FatGet_inCache {fs : Fat16} {cache : Buf} (ht : fs.header.Tabled) (ha : fs.CacheAgrees)
    (hcache : fs.fatCache = some cache) {c : ℕ} (hc : fs.header.InTable c) :
    fat16FatGet c fs = some (some (fs.fatAt c), fs) := by
  rw [fat16FatGet_fromCache hcache hc, ha.entry ht hcache hc]

theorem fat16FatGet_cached {fs : Fat16} {cache : Buf} (hs : fs.header.Sound) (hc : fs.CacheAgrees)
    (hcache : fs.fatCache = some cache) {c : ℕ} (hlast : c ≤ fs.header.lastCluster) :
    fat16FatGet c fs = some (some (fs.fatAt c), fs) :=
  fat16FatGet_inCache hs.tabled hc hcache (hs.inTable hlast)

theorem fat16FatGet_tabled {fs : Fat16} (hf : fs.ioFaults = []) (ht : fs.header.Tabled) (ha : fs.CacheAgrees) {c : ℕ}
    (hc : fs.header.InTable c) : fat16FatGet c fs = some (some (fs.fatAt c), fs) := by
  cases hcache : fs.fatCache with
  | none => exact fat16FatGet_fromDisk hf ht.bps_eq (.inl hcache)
  | some cache => exact fat16FatGet_inCache ht ha hcache hc

theorem fat16FatGet_ok {fs : Fat16} (h : fs.Mounted) {c : ℕ} (hc : c ≤ fs.header.lastCluster) :
    fat16FatGet c fs = some (some (fs.fatAt c), fs) :=
  fat16FatGet_tabled h.noFaults.io h.sound.tabled h.cache (h.sound.inTable hc)

/-! ### The table as a map -/

/-- The volume keeps the map, in RAM and in the first FAT copy, and no transfer fails. -/
structure Fat16.Keeps (fs : Fat16) (m : ℕ → ℕ) : Prop where
  tabled : fs.header.Tabled
  cache : fs.CacheAgrees
  io : fs.ioFaults = []
  map : ∀ c, fs.header.InTable c → fs.fatAt c = m c

theorem Fat16.Keeps.get {fs : Fat16} {m : ℕ → ℕ} (h : fs.Keeps m) {c : ℕ} (hc : fs.header.InTable c) :
    fat16FatGet c fs = some (some (m c), fs) := by
  rw [← h.map c hc]
  exact fat16FatGet_tabled h.io h.tabled h.cache hc

theorem Fat16.Keeps.set {fs : Fat16} {m : ℕ → ℕ} (h : fs.Keeps m) {c : ℕ} (hc : fs.header.InTable c) (value : UInt16) :
    (fs.setFat c value.toNat).Keeps (Function.update m c value.toNat) where
  tabled := by
    rw [setFat_header]
    exact h.tabled
  cache := setFat_cacheAgrees_inTable h.tabled hc h.cache
  io := (setFat_ioFaults fs c value.toNat).trans h.io
  map := by
    intro d hd
    rw [setFat_header] at hd
    rw [fatAt_setFat_inTable h.tabled hc value.toNat_lt hd, Function.update_apply]
    split
    · rfl
    · exact h.map d hd

/-- Every lookup in the table succeeds and changes nothing: no transfer fails, or none is needed. -/
def Fat16.Readable (fs : Fat16) : Prop :=
  ∀ c ≤ fs.header.lastCluster, fat16FatGet c fs = some (some (fs.fatAt c), fs)

theorem Fat16.Mounted.readable {fs : Fat16} (h : fs.Mounted) : fs.Readable := fun _ hc => fat16FatGet_ok h hc

theorem Fat16.Readable.next {fs : Fat16} (h : fs.Readable) {c : ℕ} (hc : c ≤ fs.header.lastCluster) :
    fat16NextCluster c fs = some (fs.fatAt c, fs) := by
  simp only [fat16NextCluster, Prog.bind_apply, h c hc, Prog.obind_some, Prog.pure_apply]

theorem fat16NextCluster_ok {fs : Fat16} (h : fs.Mounted) {c : ℕ}
    (hc : c ≤ fs.header.lastCluster) :
    fat16NextCluster c fs = some (fs.fatAt c, fs) := h.readable.next hc

/-- The link of a cluster as `fat16_next_cluster` reads it, whatever the table holds: from RAM where the
table is cached, else from the disk. -/
def Fat16.linkAt (fs : Fat16) (c : ℕ) : ℕ :=
  let fromDisk := (le16 (fs.disk (fs.header.fatStartLba + c * FAT16_FAT_ENTRY_SIZE / fs.header.bps))
    (c * FAT16_FAT_ENTRY_SIZE % fs.header.bps)).toNat
  match fs.fatCache with
  | none => fromDisk
  | some cache =>
      if c * FAT16_FAT_ENTRY_SIZE + FAT16_FAT_ENTRY_SIZE ≤ fs.header.fatBytes then
        (le16 cache (c * FAT16_FAT_ENTRY_SIZE)).toNat
      else fromDisk

theorem fat16NextCluster_io {fs : Fat16} (h : fs.ioFaults = []) (c : ℕ) :
    fat16NextCluster c fs = some (fs.linkAt c, fs) := by
  simp only [fat16NextCluster, fat16FatGet, fatFromDisk, Prog.bind_apply, Prog.get_apply, Prog.obind_some,
    Fat16.linkAt]
  cases fs.fatCache with
  | none =>
    simp only [Prog.bind_apply, blkDevRead_io h, Prog.obind_some, Prog.pure_apply]
  | some cache =>
    simp only [Prog.ite_apply, Prog.bind_apply, blkDevRead_io h, Prog.obind_some, Prog.pure_apply]
    split <;> rfl

theorem fat16NextCluster_link {fs : Fat16} (h : fs.NoFaults) (c : ℕ) :
    fat16NextCluster c fs = some (fs.linkAt c, fs) := fat16NextCluster_io h.io c

/-- On a mounted volume the link of a cluster is its entry in the table. -/
theorem Fat16.linkAt_eq_fatAt {fs : Fat16} (h : fs.Mounted) {c : ℕ}
    (hc : c ≤ fs.header.lastCluster) : fs.linkAt c = fs.fatAt c := by
  have h1 := fat16NextCluster_link h.noFaults c
  rw [fat16NextCluster_ok h hc] at h1
  exact (congrArg Prod.fst (Option.some.inj h1)).symm

/-- The clusters the allocator may take, in its order. -/
def Fat16.freeList (fs : Fat16) : List ℕ :=
  (List.range' FAT16_CLUSTER_MIN (fs.header.lastCluster + 1 - FAT16_CLUSTER_MIN)).filter
    fun b => decide (fs.fatAt b = FAT16_FREE_CLUSTER)

theorem Fat16.mem_freeList {fs : Fat16} {b : ℕ} : b ∈ fs.freeList ↔
    FAT16_CLUSTER_MIN ≤ b ∧ b ≤ fs.header.lastCluster ∧ fs.fatAt b = FAT16_FREE_CLUSTER := by
  simp only [freeList, List.mem_filter, List.mem_range'_1, decide_eq_true_eq, and_assoc]
  constructor
  · intro ⟨h1, h2, h3⟩
    exact ⟨h1, by omega, h3⟩
  · intro ⟨h1, h2, h3⟩
    exact ⟨h1, by omega, h3⟩

theorem Fat16.freeList_nodup (fs : Fat16) : fs.freeList.Nodup := List.Nodup.filter _ List.nodup_range'

/-- Taking the first free cluster leaves the others. -/
theorem Fat16.freeList_take {fs fs' : Fat16} {a : ℕ} {m : List ℕ} (hh : fs'.header = fs.header)
    (h : fs.freeList = a :: m) (ha : fs'.fatAt a ≠ FAT16_FREE_CLUSTER)
    (hfat : ∀ b ≤ fs.header.lastCluster, b ≠ a →
      (fs'.fatAt b = FAT16_FREE_CLUSTER ↔ fs.fatAt b = FAT16_FREE_CLUSTER)) : fs'.freeList = m := by
  have hsame : fs'.freeList = fs.freeList.filter fun b => decide (b ≠ a) := by
    unfold freeList
    rw [hh, List.filter_filter]
    apply List.filter_congr
    intro b hb
    have hin : b ≤ fs.header.lastCluster := by
      have := List.mem_range'_1.mp hb
      omega
    by_cases hba : b = a
    · subst hba
      simp [ha]
    · simp [hba, hfat b hin hba]
  have hnd := fs.freeList_nodup
  rw [hsame, h]
  rw [h, List.nodup_cons] at hnd
  rw [List.filter_cons_of_neg (by simp), List.filter_eq_self]
  intro b hb
  simp only [decide_eq_true_eq]
  rintro rfl
  exact hnd.1 hb

/-- Mark the first cluster of a list as the end of a chain. -/
def allocFirst : List ℕ → Fs (Option ℕ)
  | [] => pure none
  | a :: _ => do if ← fat16FatSet a FAT16_EOC then pure (some a) else pure none

/-- The allocator's search takes the first free cluster of its range. -/
theorem clusterAllocFrom_eq {fs : Fat16} (h : fs.Readable) (n : ℕ) : ∀ c,
    c + n ≤ fs.header.lastCluster + 1 →
    clusterAllocFrom n c fs =
      allocFirst ((List.range' c n).filter fun b => decide (fs.fatAt b = FAT16_FREE_CLUSTER)) fs := by
  induction n with
  | zero =>
    intro c _
    rfl
  | succ n ih =>
    intro c hc
    rw [List.range'_succ]
    by_cases hfree : fs.fatAt c = FAT16_FREE_CLUSTER
    · rw [List.filter_cons_of_pos (by simpa using hfree)]
      simp only [clusterAllocFrom, allocFirst, Prog.bind_apply, h c (by omega), Prog.obind_some, hfree, if_true]
    · rw [List.filter_cons_of_neg (by simpa using hfree), ← ih (c + 1) (by omega)]
      simp only [clusterAllocFrom, Prog.bind_apply, h c (by omega), Prog.obind_some, hfree, if_false]

/-- The allocator searches from the first cluster to the last one. -/
theorem fat16ClusterAlloc_search (fs : Fat16) : fat16ClusterAlloc fs =
    clusterAllocFrom (fs.header.lastCluster + 1 - FAT16_CLUSTER_MIN) FAT16_CLUSTER_MIN fs := by
  simp only [fat16ClusterAlloc, Prog.bind_apply, Prog.get_apply, Prog.obind_some]

/-- **The allocator** takes the first free cluster. -/
theorem fat16ClusterAlloc_eq {fs : Fat16} (h : fs.Readable) :
    fat16ClusterAlloc fs = allocFirst fs.freeList fs := by
  rw [fat16ClusterAlloc_search, Fat16.freeList]
  by_cases hlast : FAT16_CLUSTER_MIN ≤ fs.header.lastCluster + 1
  · rw [clusterAllocFrom_eq h _ _ (by omega)]
  · rw [show fs.header.lastCluster + 1 - FAT16_CLUSTER_MIN = 0 by omega]
    rfl

theorem fat16ClusterAlloc_nil {fs : Fat16} (h : fs.Readable) (hlist : fs.freeList = []) :
    fat16ClusterAlloc fs = some (none, fs) := by
  rw [fat16ClusterAlloc_eq h, hlist]
  rfl

theorem fat16ClusterAlloc_cons {fs : Fat16} (h : fs.Mounted) {a : ℕ} {m : List ℕ} (hlist : fs.freeList = a :: m) :
    fat16ClusterAlloc fs = some (some a, fs.setFat a FAT16_EOC) := by
  rw [fat16ClusterAlloc_eq h.readable, hlist]
  simp only [allocFirst, Prog.bind_apply, fat16FatSet_ok h, Prog.obind_some, if_true, Prog.pure_apply]

/-- **The allocator** returns a free cluster and marks it end-of-chain, or reports a volume with no free
cluster and changes nothing. -/
theorem fat16ClusterAlloc_ok {fs : Fat16} (h : fs.Mounted) :
    (∃ a, FAT16_CLUSTER_MIN ≤ a ∧ a ≤ fs.header.lastCluster ∧ fs.fatAt a = FAT16_FREE_CLUSTER ∧
      fat16ClusterAlloc fs = some (some a, fs.setFat a FAT16_EOC)) ∨
    ((∀ b, FAT16_CLUSTER_MIN ≤ b → b ≤ fs.header.lastCluster → fs.fatAt b ≠ FAT16_FREE_CLUSTER) ∧
      fat16ClusterAlloc fs = some (none, fs)) := by
  cases hlist : fs.freeList with
  | nil =>
    refine .inr ⟨fun b hmin hb hfree => ?_, fat16ClusterAlloc_nil h.readable hlist⟩
    have := Fat16.mem_freeList.mpr ⟨hmin, hb, hfree⟩
    rw [hlist] at this
    cases this
  | cons a m =>
    have ha : a ∈ fs.freeList := by
      rw [hlist]
      simp
    obtain ⟨h1, h2, h3⟩ := Fat16.mem_freeList.mp ha
    exact .inl ⟨a, h1, h2, h3, fat16ClusterAlloc_cons h hlist⟩

theorem FatHeader.lastCluster_le (h : FatHeader) : h.lastCluster ≤ FAT16_CLUSTER_MAX :=
  Nat.min_le_right _ _

/-- No list of distinct clusters of the volume is as long as the walks are allowed to be. -/
theorem length_lt_steps {h : FatHeader} {l : List ℕ} (hnd : l.Nodup)
    (hl : ∀ c ∈ l, c ≤ h.lastCluster) : l.length < CLUSTER_STEPS := by
  have hlt : ∀ c ∈ l, c < FAT16_CLUSTER_MAX + 1 := by
    intro c hc
    have h1 := hl c hc
    have h2 := h.lastCluster_le
    omega
  have hmax : FAT16_CLUSTER_MAX + 1 < CLUSTER_STEPS := by decide
  exact Nat.lt_of_le_of_lt (nodup_length_le hnd hlt) hmax

namespace Fat16

/-- Mark every cluster of a list free. -/
def freeAll (fs : Fat16) : List ℕ → Fat16
  | [] => fs
  | c :: l => (fs.setFat c FAT16_FREE_CLUSTER).freeAll l

@[simp] theorem freeAll_header (fs : Fat16) (l : List ℕ) : (fs.freeAll l).header = fs.header := by
  induction l generalizing fs with
  | nil => rfl
  | cons c l ih => rw [freeAll, ih, setFat_header]

@[simp] theorem freeAll_readOnly (fs : Fat16) (l : List ℕ) :
    (fs.freeAll l).readOnly = fs.readOnly := by
  induction l generalizing fs with
  | nil => rfl
  | cons c l ih => rw [freeAll, ih, setFat_readOnly]

theorem freeAll_mounted {fs : Fat16} {l : List ℕ} (h : fs.Mounted)
    (hl : ∀ c ∈ l, c ≤ fs.header.lastCluster) : (fs.freeAll l).Mounted := by
  induction l generalizing fs with
  | nil => exact h
  | cons c l ih =>
    apply ih (setFat_mounted h (hl c (by simp)))
    intro d hd
    rw [setFat_header]
    exact hl d (by simp [hd])

theorem freeAll_disk {fs : Fat16} {l : List ℕ} (hs : fs.header.Sound)
    (hl : ∀ c ∈ l, c ≤ fs.header.lastCluster) {lba : ℕ} (hlba : fs.header.rootDirLba ≤ lba) :
    (fs.freeAll l).disk lba = fs.disk lba := by
  induction l generalizing fs with
  | nil => rfl
  | cons c l ih =>
    rw [freeAll, ih, setFat_disk_of_root_le hs (hl c (by simp)) hlba]
    · rw [setFat_header]; exact hs
    · intro d hd
      rw [setFat_header]
      exact hl d (by simp [hd])
    · rw [setFat_header]; exact hlba

theorem fatAt_freeAll {fs : Fat16} {l : List ℕ} (hs : fs.header.Sound)
    (hl : ∀ c ∈ l, c ≤ fs.header.lastCluster) {d : ℕ} (hd : d ≤ fs.header.lastCluster) :
    (fs.freeAll l).fatAt d = if d ∈ l then FAT16_FREE_CLUSTER else fs.fatAt d := by
  induction l generalizing fs with
  | nil => simp [freeAll]
  | cons c l ih =>
    have hl' : ∀ e ∈ l, e ≤ (fs.setFat c FAT16_FREE_CLUSTER).header.lastCluster := by
      intro e he
      rw [setFat_header]
      exact hl e (by simp [he])
    have hset : (fs.setFat c FAT16_FREE_CLUSTER).fatAt d =
        if d = c then FAT16_FREE_CLUSTER else fs.fatAt d :=
      fatAt_setFat hs (hl c (by simp)) (by decide) hd
    rw [freeAll, ih (by rw [setFat_header]; exact hs) hl' (by rw [setFat_header]; exact hd), hset]
    by_cases hdl : d ∈ l
    · simp [hdl]
    · by_cases hdc : d = c
      · simp [hdc]
      · simp [hdl, hdc]

end Fat16

theorem Fat16.Keeps.freeAll {l : List ℕ} : ∀ {fs : Fat16} {m : ℕ → ℕ}, fs.Keeps m →
    (∀ x ∈ l, fs.header.InTable x) → (fs.freeAll l).Keeps fun c => if c ∈ l then FAT16_FREE_CLUSTER else m c := by
  induction l with
  | nil => exact fun h _ => ⟨h.tabled, h.cache, h.io, fun c hc => by rw [if_neg List.not_mem_nil]; exact h.map c hc⟩
  | cons a l ih =>
    intro fs m h hl
    have hrest := ih (h.set (hl a List.mem_cons_self) 0) fun x hx => by
      rw [setFat_header]
      exact hl x (List.mem_cons_of_mem _ hx)
    refine ⟨hrest.tabled, hrest.cache, hrest.io, fun c hc => (hrest.map c hc).trans ?_⟩
    by_cases hcl : c ∈ l
    · rw [if_pos hcl, if_pos (List.mem_cons_of_mem _ hcl)]
    · rw [if_neg hcl, Function.update_apply]
      by_cases hca : c = a
      · rw [if_pos hca, if_pos (by rw [hca]; exact List.mem_cons_self)]
        rfl
      · rw [if_neg hca, if_neg (by simp [hca, hcl])]

/-- The loop of `fat16_chain_free` along a path of distinct clusters. -/
theorem chainFreeFrom_path {l : List ℕ} : ∀ {fs : Fat16} {m : ℕ → ℕ} {c t : ℕ} (n : ℕ), fs.Keeps m →
    Path m fat16ClusterValid c l t → l.Nodup → (∀ x ∈ l, fs.header.InTable x) →
    chainFreeFrom (l.length + n) c fs = chainFreeFrom n t (fs.freeAll l) := by
  induction l with
  | nil =>
    intro fs m c t n _ hp _ _
    rw [path_nil] at hp
    rw [hp, List.length_nil, Nat.zero_add, Fat16.freeAll]
  | cons a l ih =>
    intro fs m c t n h hp hnd hl
    obtain ⟨rfl, hok, hp⟩ := hp
    have hc := hl c List.mem_cons_self
    have hl' : ∀ x ∈ l, fs.header.InTable x := fun x hx => hl x (List.mem_cons_of_mem _ hx)
    have hp' : Path (Function.update m c FAT16_FREE_CLUSTER) fat16ClusterValid (m c) l t := by
      apply hp.congr
      intro x hx
      refine Function.update_of_ne ?_ _ _
      rintro rfl
      exact (List.nodup_cons.mp hnd).1 hx
    have hrest := ih n (h.set hc 0) hp' (List.nodup_cons.mp hnd).2 (by rw [Fat16.setFat_header]; exact hl')
    rw [List.length_cons, Nat.succ_add]
    simp only [chainFreeFrom, hok, if_true, Prog.bind_apply, h.get hc, Prog.obind_some,
      fat16FatSet_tabled h.io h.tabled]
    exact hrest

theorem Fat16.Mounted.keeps {fs : Fat16} (h : fs.Mounted) : fs.Keeps fs.fatAt :=
  ⟨h.sound.tabled, h.cache, h.noFaults.io, fun _ _ => rfl⟩

/-- **Freeing a chain** frees exactly its clusters. -/
theorem chainFreeFrom_ok {l : List ℕ} {fs : Fat16} {c t n : ℕ} (h : fs.Mounted)
    (hp : Path fs.fatAt fat16ClusterValid c l t) (ht : fat16ClusterValid t = false) (hnd : l.Nodup)
    (hl : ∀ x ∈ l, x ≤ fs.header.lastCluster) (hn : l.length < n) :
    chainFreeFrom n c fs = some (true, fs.freeAll l) := by
  obtain ⟨m, rfl⟩ : ∃ m, n = l.length + (m + 1) := ⟨n - l.length - 1, by omega⟩
  rw [chainFreeFrom_path (m + 1) h.keeps hp hnd fun x hx => h.sound.inTable (hl x hx)]
  simp only [chainFreeFrom, ht, Bool.false_eq_true, if_false, Prog.pure_apply]

theorem fat16ChainFree_ok {fs : Fat16} {c t : ℕ} {l : List ℕ} (h : fs.Mounted)
    (hp : Path fs.fatAt fat16ClusterValid c l t) (ht : fat16ClusterValid t = false)
    (hnd : l.Nodup) (hl : ∀ x ∈ l, x ≤ fs.header.lastCluster) :
    fat16ChainFree c fs = some (true, fs.freeAll l) := by
  unfold fat16ChainFree
  generalize hsteps : CLUSTER_STEPS = n
  apply chainFreeFrom_ok h hp ht hnd hl
  rw [← hsteps]
  exact length_lt_steps hnd hl

end LizardOs.Fat
