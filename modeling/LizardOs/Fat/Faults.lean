import LizardOs.Fat.FileWrites

/-!
# Runs with failing transfers

What the table and slot routines do when sector transfers fail.  The outcomes of the transfers to come are part of the
state, so a run under given faults is a run from `withFaults`.  A lookup gives the entry of the table or fails, and with
the table in RAM it makes no transfer at all; a table update that reports success has written every copy.  As long as the
routines succeed, the volume is the one a run without faults would have left, except for the outcomes still to come.
-/

namespace LizardOs.Fat

open LizardOs.Lib

variable {fs fs' : Fat16} {c x : ℕ} {l l' : List ℕ}

namespace Fat16

/-- The volume with other outcomes of the sector transfers to come. -/
def withFaults (fs : Fat16) (faults : List (IoOp → ℕ → Bool)) : Fat16 := { fs with ioFaults := faults }

variable (fs) (faults rest : List (IoOp → ℕ → Bool))

@[simp] theorem withFaults_header : (fs.withFaults faults).header = fs.header := rfl

@[simp] theorem withFaults_disk : (fs.withFaults faults).disk = fs.disk := rfl

@[simp] theorem withFaults_fatCache : (fs.withFaults faults).fatCache = fs.fatCache := rfl

@[simp] theorem withFaults_readOnly : (fs.withFaults faults).readOnly = fs.readOnly := rfl

@[simp] theorem withFaults_ioFaults : (fs.withFaults faults).ioFaults = faults := rfl

@[simp] theorem withFaults_fatAt (c : ℕ) : (fs.withFaults faults).fatAt c = fs.fatAt c := rfl

@[simp] theorem withFaults_entryAt (loc : DirLoc) : (fs.withFaults faults).entryAt loc = fs.entryAt loc := rfl

@[simp] theorem withFaults_freeList : (fs.withFaults faults).freeList = fs.freeList := rfl

@[simp] theorem withFaults_withFaults : (fs.withFaults faults).withFaults rest = fs.withFaults rest := rfl

theorem withFaults_setSector (lba : ℕ) (buf : Buf) :
    (fs.withFaults faults).setSector lba buf = (fs.setSector lba buf).withFaults faults := rfl

theorem withFaults_setFatCopies (c value n : ℕ) : ∀ (fs : Fat16) (f : ℕ),
    (fs.withFaults faults).setFatCopies c value n f = (fs.setFatCopies c value n f).withFaults faults := by
  induction n with
  | zero =>
    intro fs f
    rfl
  | succ n ih =>
    intro fs f
    exact ih (fs.setSector (fs.header.fatStartLba + f * fs.header.fatSize16.toNat + c * 2 / 512) _) (f + 1)

theorem withFaults_setCache (byte value : ℕ) :
    (fs.withFaults faults).setCache byte value = (fs.setCache byte value).withFaults faults := by
  unfold setCache
  rw [withFaults_fatCache]
  cases fs.fatCache with
  | none => rfl
  | some cache =>
    by_cases hin : byte + FAT16_FAT_ENTRY_SIZE ≤ fs.header.fatBytes
    · simp only [withFaults_header, hin, if_true]
      rfl
    · simp only [withFaults_header, hin, if_false]

theorem withFaults_setFat (c value : ℕ) :
    (fs.withFaults faults).setFat c value = (fs.setFat c value).withFaults faults := by
  rw [setFat, setFat, withFaults_header, withFaults_setFatCopies, withFaults_setCache]

theorem withFaults_nil {fs : Fat16} (h : fs.ioFaults = []) : fs.withFaults [] = fs := by
  rw [← h]
  rfl

end Fat16

/-! ### Sector transfers -/

theorem blkDevRead_cases (fs : Fat16) (sector : ℕ) : ∃ r rest, blkDevRead sector fs = some (r, fs.withFaults rest) ∧
    (r = none ∨ r = some (fs.disk sector)) := by
  unfold blkDevRead
  cases hf : fs.ioFaults with
  | nil => exact ⟨some (fs.disk sector), [], by rw [Fat16.withFaults_nil hf], .inr rfl⟩
  | cons fault rest =>
    refine ⟨_, rest, rfl, ?_⟩
    by_cases hfault : fault .read sector
    · exact .inl (if_pos hfault)
    · exact .inr (if_neg hfault)

theorem blkDevWrite_cases (fs : Fat16) (sector : ℕ) (buf : Buf) :
    ∃ rest, blkDevWrite sector buf fs = some (false, fs.withFaults rest) ∨
      blkDevWrite sector buf fs = some (true, (fs.setSector sector buf).withFaults rest) := by
  unfold blkDevWrite
  cases hf : fs.ioFaults with
  | nil =>
    have hsame : (fs.setSector sector buf).withFaults [] = fs.setSector sector buf := Fat16.withFaults_nil hf
    exact ⟨[], .inr (by rw [hsame])⟩
  | cons fault rest =>
    refine ⟨rest, ?_⟩
    by_cases hfault : fault .write sector
    · exact .inl (if_pos hfault)
    · exact .inr (if_neg hfault)

/-- The outcome of a transfer that succeeds. -/
def noFault : IoOp → ℕ → Bool := fun _ _ => false

/-- The outcome of a transfer that fails. -/
def failure : IoOp → ℕ → Bool := fun _ _ => true

section Outcomes

variable {rest : List (IoOp → ℕ → Bool)} {sector : ℕ}

theorem blkDevRead_noFault (h : fs.ioFaults = noFault :: rest) :
    blkDevRead sector fs = some (some (fs.disk sector), fs.withFaults rest) := by
  simp only [blkDevRead, h]
  rfl

theorem blkDevWrite_noFault (h : fs.ioFaults = noFault :: rest) (buf : Buf) :
    blkDevWrite sector buf fs = some (true, (fs.setSector sector buf).withFaults rest) := by
  simp only [blkDevWrite, h]
  rfl

theorem blkDevRead_failure (h : fs.ioFaults = failure :: rest) :
    blkDevRead sector fs = some (none, fs.withFaults rest) := by
  simp only [blkDevRead, h]
  rfl

theorem blkDevWrite_failure (h : fs.ioFaults = failure :: rest) (buf : Buf) :
    blkDevWrite sector buf fs = some (false, fs.withFaults rest) := by
  simp only [blkDevWrite, h]
  rfl

end Outcomes

/-- A slot write leaves the volume as it was, or with the new entry in the slot. -/
theorem fat16DirWrite_cases (fs : Fat16) (loc : DirLoc) (ent : Fat16Directory) :
    ∃ ok rest, fat16DirWrite loc ent fs = some (ok, fs.withFaults rest) ∧ ok = false ∨
      fat16DirWrite loc ent fs = some (ok, (fs.setEntry loc ent).withFaults rest) ∧ ok = true := by
  obtain ⟨r, rest, hread, hr⟩ := blkDevRead_cases fs loc.lba
  cases r with
  | none =>
    refine ⟨false, rest, .inl ⟨?_, rfl⟩⟩
    simp only [fat16DirWrite, Prog.bind_apply, hread, Prog.obind_some, Prog.pure_apply]
  | some buf =>
    obtain rfl : buf = fs.disk loc.lba := by
      rcases hr with hr | hr
      · cases hr
      · exact Option.some.inj hr
    obtain ⟨rest', hwrite | hwrite⟩ := blkDevWrite_cases (fs.withFaults rest) loc.lba
      (splice (fs.disk loc.lba) loc.off ent.toBytes FAT16_DIR_ENTRY_SIZE)
    · refine ⟨false, rest', .inl ⟨?_, rfl⟩⟩
      simp only [fat16DirWrite, Prog.bind_apply, hread, Prog.obind_some, hwrite]
      rfl
    · refine ⟨true, rest', .inr ⟨?_, rfl⟩⟩
      simp only [fat16DirWrite, Prog.bind_apply, hread, Prog.obind_some, hwrite]
      rfl

/-! ### The table -/

/-- One copy of the table, and the others. -/
theorem Fat16.setFatCopies_next {value sector f : ℕ} {new : Buf} (n : ℕ)
    (hsec : fs.header.fatStartLba + f * fs.header.fatSize16.toNat + c * 2 / 512 = sector)
    (hnew : splice (fs.disk sector) (c * 2 % 512) (fatEntryBytes value) FAT16_FAT_ENTRY_SIZE = new) :
    fs.setFatCopies c value (n + 1) f = (fs.setSector sector new).setFatCopies c value n (f + 1) := by
  rw [← hnew, ← hsec]
  rfl

/-- The loop over the copies ends before one of them, or behind the last. -/
theorem fatSetCopies_cases (value n : ℕ) : ∀ (fs : Fat16) (f : ℕ), fs.header.bps = 512 →
    ∃ ok fs', fatSetCopies (c * 2) value n f fs = some (ok, fs') ∧
      ∃ k rest, (ok = true → k = n) ∧ fs' = (fs.setFatCopies c value k f).withFaults rest := by
  induction n with
  | zero =>
    intro fs f _
    exact ⟨true, fs, rfl, 0, fs.ioFaults, fun _ => rfl, rfl⟩
  | succ n ih =>
    intro fs f hb
    obtain ⟨sector, hsec⟩ : ∃ sector,
        fs.header.fatStartLba + f * fs.header.fatSize16.toNat + c * 2 / 512 = sector := ⟨_, rfl⟩
    obtain ⟨r, rest, hread, hr⟩ := blkDevRead_cases fs sector
    cases r with
    | none =>
      refine ⟨false, fs.withFaults rest, ?_, 0, rest, fun h => (by cases h), rfl⟩
      simp only [fatSetCopies, Prog.bind_apply, Prog.get_apply, Prog.obind_some, hb, hsec, hread, Prog.pure_apply]
    | some buf =>
      obtain rfl : buf = fs.disk sector := by
        rcases hr with hr | hr
        · cases hr
        · exact Option.some.inj hr
      obtain ⟨new, hnew⟩ : ∃ new,
          splice (fs.disk sector) (c * 2 % 512) (fatEntryBytes value) FAT16_FAT_ENTRY_SIZE = new := ⟨_, rfl⟩
      have hcopies := fun k => Fat16.setFatCopies_next k hsec hnew
      obtain ⟨rest', hwrite | hwrite⟩ := blkDevWrite_cases (fs.withFaults rest) sector new
      · refine ⟨false, (fs.withFaults rest).withFaults rest', ?_, 0, rest', fun h => (by cases h), rfl⟩
        simp only [fatSetCopies, Prog.bind_apply, Prog.get_apply, Prog.obind_some, hb, hsec, hread, hnew, hwrite,
          Bool.false_eq_true, if_false, Prog.pure_apply]
      · obtain ⟨ok, fs', hrun, k, rest'', hk, hfs'⟩ :=
          ih (((fs.withFaults rest).setSector sector new).withFaults rest') (f + 1) hb
        refine ⟨ok, fs', ?_, k + 1, rest'', fun h => congrArg Nat.succ (hk h), hfs'.trans ?_⟩
        · simp only [fatSetCopies, Prog.bind_apply, Prog.get_apply, Prog.obind_some, hb, hsec, hread, hnew, hwrite,
            if_true]
          exact hrun
        · rw [Fat16.withFaults_setSector, Fat16.withFaults_withFaults, Fat16.withFaults_setFatCopies,
            Fat16.withFaults_withFaults, hcopies]

/-- A table update writes the first copies, and one that reports success all of them and the table in RAM. -/
theorem fat16FatSet_cases (hb : fs.header.bps = 512) (c value : ℕ) :
    ∃ ok fs', fat16FatSet c value fs = some (ok, fs') ∧
      (ok = true → ∃ rest, fs' = (fs.setFat c value).withFaults rest) ∧
      (ok = false → ∃ k rest, fs' = (fs.setFatCopies c value k 0).withFaults rest) := by
  obtain ⟨ok, fs', hrun, k, rest, hk, rfl⟩ := fatSetCopies_cases (c := c) value fs.header.numFats.toNat fs 0 hb
  cases ok with
  | false =>
    refine ⟨false, _, ?_, fun h => (by cases h), fun _ => ⟨k, rest, rfl⟩⟩
    simp only [fat16FatSet, Prog.bind_apply, Prog.get_apply, Prog.obind_some, FAT16_FAT_ENTRY_SIZE, hrun,
      Bool.false_eq_true, if_false, Prog.pure_apply]
  | true =>
    obtain rfl := hk rfl
    refine ⟨true, (fs.setFat c value).withFaults rest, ?_, fun _ => ⟨rest, rfl⟩, fun h => (by cases h)⟩
    simp only [fat16FatSet, Prog.bind_apply, Prog.get_apply, Prog.obind_some, FAT16_FAT_ENTRY_SIZE, hrun, if_true,
      Prog.modify_apply, Prog.pure_apply, Fat16.withFaults_setCache]
    rfl

theorem fatSetCopies_noFault (value n : ℕ) (rest : List (IoOp → ℕ → Bool)) : ∀ (fs : Fat16) (f : ℕ),
    fs.header.bps = 512 → fs.ioFaults = List.replicate (2 * n) noFault ++ rest →
    fatSetCopies (c * 2) value n f fs = some (true, (fs.setFatCopies c value n f).withFaults rest) := by
  induction n with
  | zero =>
    intro fs f _ hf
    have hsame : fs.withFaults rest = fs := by
      rw [← show fs.ioFaults = rest from hf]
      rfl
    show some (true, fs) = some (true, fs.withFaults rest)
    rw [hsame]
  | succ n ih =>
    intro fs f hb hf
    obtain ⟨later, hlater⟩ : ∃ later, List.replicate (2 * n) noFault ++ rest = later := ⟨_, rfl⟩
    have hf1 : fs.ioFaults = noFault :: noFault :: later := by
      rw [← hlater]
      exact hf
    obtain ⟨sector, hsec⟩ : ∃ sector,
        fs.header.fatStartLba + f * fs.header.fatSize16.toNat + c * 2 / 512 = sector := ⟨_, rfl⟩
    obtain ⟨new, hnew⟩ : ∃ new,
        splice (fs.disk sector) (c * 2 % 512) (fatEntryBytes value) FAT16_FAT_ENTRY_SIZE = new := ⟨_, rfl⟩
    have hcopies := Fat16.setFatCopies_next n hsec hnew
    have hwrite : blkDevWrite sector new (fs.withFaults (noFault :: later)) =
        some (true, ((fs.withFaults (noFault :: later)).setSector sector new).withFaults later) :=
      blkDevWrite_noFault rfl new
    simp only [fatSetCopies, Prog.bind_apply, Prog.get_apply, Prog.obind_some, hb, hsec, blkDevRead_noFault hf1, hnew,
      hwrite, if_true]
    rw [ih (((fs.withFaults (noFault :: later)).setSector sector new).withFaults later) (f + 1) hb hlater.symm,
      Fat16.withFaults_setSector, Fat16.withFaults_withFaults, Fat16.withFaults_setFatCopies,
      Fat16.withFaults_withFaults, hcopies]

/-- A table update whose transfers succeed. -/
theorem fat16FatSet_noFault (hs : fs.header.Sound) {rest : List (IoOp → ℕ → Bool)} (c value : ℕ)
    (hf : fs.ioFaults = List.replicate (2 * fs.header.numFats.toNat) noFault ++ rest) :
    fat16FatSet c value fs = some (true, (fs.setFat c value).withFaults rest) := by
  have hcopies := fatSetCopies_noFault (c := c) value fs.header.numFats.toNat rest fs 0 hs.bps_eq hf
  simp only [fat16FatSet, Prog.bind_apply, Prog.get_apply, Prog.obind_some, FAT16_FAT_ENTRY_SIZE, hcopies, if_true,
    Prog.modify_apply, Prog.pure_apply, Fat16.withFaults_setCache]
  rfl

/-- A table update whose first transfer fails changes nothing. -/
theorem fat16FatSet_failure (hs : fs.header.Sound) {rest : List (IoOp → ℕ → Bool)} (c value : ℕ)
    (hf : fs.ioFaults = failure :: rest) : fat16FatSet c value fs = some (false, fs.withFaults rest) := by
  obtain ⟨n, hn⟩ : ∃ n, fs.header.numFats.toNat = n + 1 := ⟨fs.header.numFats.toNat - 1, by have := hs.fats; omega⟩
  simp only [fat16FatSet, Prog.bind_apply, Prog.get_apply, Prog.obind_some, hn, fatSetCopies, blkDevRead_failure hf,
    Prog.pure_apply, Bool.false_eq_true, if_false]

/-! ### A mounted volume -/

/-- A mounted volume; transfers may fail, and the table need not be in RAM. -/
structure Fat16.Attached (fs : Fat16) : Prop where
  sound : fs.header.Sound
  cache : fs.CacheAgrees

theorem Fat16.Mounted.attached (h : fs.Mounted) : fs.Attached := ⟨h.sound, h.cache⟩

namespace Fat16.Attached

/-- With the table in RAM a lookup makes no transfer. -/
theorem readable (h : fs.Attached) (hcached : fs.fatCache ≠ none) : fs.Readable := by
  intro c hc
  cases hcache : fs.fatCache with
  | none => exact absurd hcache hcached
  | some cache => exact fat16FatGet_cached h.sound h.cache hcache hc

theorem withFaults (h : fs.Attached) (faults : List (IoOp → ℕ → Bool)) : (fs.withFaults faults).Attached :=
  ⟨h.sound, h.cache⟩

theorem setFat (h : fs.Attached) (hc : c ≤ fs.header.lastCluster) (value : ℕ) : (fs.setFat c value).Attached where
  sound := by
    rw [setFat_header]
    exact h.sound
  cache := setFat_cacheAgrees h.sound hc h.cache

theorem sectorsOnly (h : fs.Attached) {lba n : ℕ} (hframe : fs.SectorsOnly fs' lba n)
    (hlba : fs.header.rootDirLba ≤ lba) : fs'.Attached where
  sound := by
    rw [hframe.header]
    exact h.sound
  cache := hframe.cacheAgrees h.sound h.cache hlba

end Fat16.Attached

/-! ### Lookups and the allocator when transfers fail -/

/-- A lookup gives the entry of the table, or fails with a transfer of its own. -/
theorem fat16FatGet_cases (h : fs.Attached) (hc : c ≤ fs.header.lastCluster) :
    ∃ r rest, fat16FatGet c fs = some (r, fs.withFaults rest) ∧ (r = none ∨ r = some (fs.fatAt c)) := by
  cases hcache : fs.fatCache with
  | some cache => exact ⟨_, fs.ioFaults, fat16FatGet_cached h.sound h.cache hcache hc, .inr rfl⟩
  | none =>
    obtain ⟨r, rest, hread, hr⟩ := blkDevRead_cases fs (fs.header.fatStartLba + c * FAT16_FAT_ENTRY_SIZE / 512)
    refine ⟨r.map fun buf => (le16 buf (c * FAT16_FAT_ENTRY_SIZE % 512)).toNat, rest, ?_, ?_⟩
    · simp only [fat16FatGet, fatFromDisk, Prog.bind_apply, Prog.get_apply, Prog.obind_some, hcache, h.sound.bps_eq, hread]
      cases r <;> rfl
    · rcases hr with rfl | rfl
      · exact .inl rfl
      · exact .inr rfl

/-- A link that cannot be read is the end of the chain. -/
theorem fat16NextCluster_cases (h : fs.Attached) (hc : c ≤ fs.header.lastCluster) :
    ∃ y rest, fat16NextCluster c fs = some (y, fs.withFaults rest) ∧ (y = FAT16_EOC ∨ y = fs.fatAt c) := by
  obtain ⟨r, rest, hget, rfl | rfl⟩ := fat16FatGet_cases h hc
  · refine ⟨FAT16_EOC, rest, ?_, .inl rfl⟩
    simp only [fat16NextCluster, Prog.bind_apply, hget, Prog.obind_some, Prog.pure_apply]
  · refine ⟨fs.fatAt c, rest, ?_, .inr rfl⟩
    simp only [fat16NextCluster, Prog.bind_apply, hget, Prog.obind_some, Prog.pure_apply]

/-- What the allocator may do: a cluster that it gives was free and is marked, and where none is free it changes nothing. -/
structure Fat16.Allocates (fs : Fat16) (r : Option ℕ) (fs' : Fat16) : Prop where
  taken : ∀ a, r = some a → a ∈ fs.freeList ∧ ∃ rest, fs' = (fs.setFat a FAT16_EOC).withFaults rest
  full : fs.freeList = [] → r = none ∧ ∃ rest, fs' = fs.withFaults rest

theorem Fat16.Allocates.nothing (fs : Fat16) (rest : List (IoOp → ℕ → Bool)) :
    fs.Allocates none (fs.withFaults rest) where
  taken := by
    intro a ha
    cases ha
  full := fun _ => ⟨rfl, rest, rfl⟩

theorem clusterAllocFrom_cases (n : ℕ) : ∀ (fs : Fat16) (c : ℕ), fs.Attached → FAT16_CLUSTER_MIN ≤ c →
    c + n ≤ fs.header.lastCluster + 1 → ∃ r fs', clusterAllocFrom n c fs = some (r, fs') ∧ fs.Allocates r fs' := by
  induction n with
  | zero => exact fun fs c _ _ _ => ⟨none, fs, rfl, .nothing fs fs.ioFaults⟩
  | succ n ih =>
    intro fs c h hmin hlast
    obtain ⟨r, rest, hget, rfl | rfl⟩ := fat16FatGet_cases h (c := c) (by omega)
    · refine ⟨none, fs.withFaults rest, ?_, .nothing fs rest⟩
      simp only [clusterAllocFrom, Prog.bind_apply, hget, Prog.obind_some, Prog.pure_apply]
    · by_cases hfree : fs.fatAt c = FAT16_FREE_CLUSTER
      · have hmem : c ∈ fs.freeList := Fat16.mem_freeList.mpr ⟨hmin, by omega, hfree⟩
        obtain ⟨ok, fs1, hset, hok, -⟩ := fat16FatSet_cases (h.withFaults rest).sound.bps_eq c FAT16_EOC
        refine ⟨if ok = true then some c else none, fs1, ?_, fun a ha => ?_, fun hnone => ?_⟩
        · simp only [clusterAllocFrom, Prog.bind_apply, hget, Prog.obind_some, hfree, if_true, hset]
          cases ok <;> rfl
        · cases ok with
          | false => cases ha
          | true =>
            obtain ⟨rest', hfs1⟩ := hok rfl
            obtain rfl : c = a := Option.some.inj ha
            exact ⟨hmem, rest', by rw [hfs1, Fat16.withFaults_setFat, Fat16.withFaults_withFaults]⟩
        · rw [hnone] at hmem
          cases hmem
      · obtain ⟨r, fs', hrun, htaken, hfull⟩ := ih (fs.withFaults rest) (c + 1) (h.withFaults rest) (by omega)
          (show c + 1 + n ≤ fs.header.lastCluster + 1 by omega)
        refine ⟨r, fs', ?_, fun a ha => ?_, hfull⟩
        · simp only [clusterAllocFrom, Prog.bind_apply, hget, Prog.obind_some, hfree, if_false, hrun]
        · obtain ⟨hmem, rest', hfs'⟩ := htaken a ha
          exact ⟨hmem, rest', by rw [hfs', Fat16.withFaults_setFat, Fat16.withFaults_withFaults]⟩

/-- **The allocator when transfers fail.** -/
theorem fat16ClusterAlloc_cases (h : fs.Attached) :
    ∃ r fs', fat16ClusterAlloc fs = some (r, fs') ∧ fs.Allocates r fs' := by
  rw [fat16ClusterAlloc_search]
  by_cases hlast : FAT16_CLUSTER_MIN ≤ fs.header.lastCluster + 1
  · exact clusterAllocFrom_cases _ fs FAT16_CLUSTER_MIN h (le_refl _) (by omega)
  · rw [show fs.header.lastCluster + 1 - FAT16_CLUSTER_MIN = 0 by omega]
    exact ⟨none, fs, rfl, .nothing fs fs.ioFaults⟩

/-! ### Transfers that succeed up to a point -/

/-- With outcomes that let it succeed, and any outcomes behind them, the routine answers `r` and leaves `fs'` with the
outcomes behind. -/
def Passes {α : Type} (m : Fs α) (fs : Fat16) (r : α) (fs' : Fat16) : Prop :=
  ∀ rest, ∃ faults, m (fs.withFaults faults) = some (r, fs'.withFaults rest)

namespace Passes

variable {α β : Type} {m : Fs α} {k : α → Fs β} {fs₁ : Fat16} {r : α} {q : β}

theorem pure (r : α) (fs : Fat16) : Passes (Pure.pure r) fs r fs := fun rest => ⟨rest, rfl⟩

theorem bind (hm : Passes m fs r fs₁) (hk : Passes (k r) fs₁ q fs') : Passes (m >>= k) fs q fs' := by
  intro rest
  obtain ⟨later, hlater⟩ := hk rest
  obtain ⟨faults, hfaults⟩ := hm later
  exact ⟨faults, (Prog.bind_of_eq hfaults k).trans hlater⟩

theorem fat16FatGet (h : fs.Attached) (hc : c ≤ fs.header.lastCluster) :
    Passes (fat16FatGet c) fs (some (fs.fatAt c)) fs := by
  intro rest
  cases hcache : fs.fatCache with
  | some cache => exact ⟨rest, fat16FatGet_cached (h.withFaults rest).sound (h.withFaults rest).cache hcache hc⟩
  | none =>
    refine ⟨noFault :: rest, ?_⟩
    have hread : ∀ sector, blkDevRead sector (fs.withFaults (noFault :: rest)) =
        some (some (fs.disk sector), fs.withFaults rest) := fun sector => blkDevRead_noFault rfl
    simp only [Fat.fat16FatGet, fatFromDisk, Prog.bind_apply, Prog.get_apply, Prog.obind_some,
      Fat16.withFaults_fatCache, hcache, Fat16.withFaults_header, h.sound.bps_eq, hread, Prog.pure_apply]
    rfl

theorem fat16NextCluster (h : fs.Attached) (hc : c ≤ fs.header.lastCluster) :
    Passes (fat16NextCluster c) fs (fs.fatAt c) fs := (fat16FatGet h hc).bind (pure _ _)

theorem fat16FatSet (h : fs.Attached) (c value : ℕ) : Passes (fat16FatSet c value) fs true (fs.setFat c value) := by
  intro rest
  refine ⟨List.replicate (2 * fs.header.numFats.toNat) noFault ++ rest, ?_⟩
  have hset := fat16FatSet_noFault (h.withFaults (List.replicate (2 * fs.header.numFats.toNat) noFault ++ rest)).sound
    c value rfl
  rw [hset, Fat16.withFaults_setFat, Fat16.withFaults_withFaults]

theorem clusterAllocFrom (h : fs.Attached) {a : ℕ} {m : List ℕ} (n : ℕ) : ∀ c, c + n ≤ fs.header.lastCluster + 1 →
    (List.range' c n).filter (fun b => decide (fs.fatAt b = FAT16_FREE_CLUSTER)) = a :: m →
    Passes (clusterAllocFrom n c) fs (some a) (fs.setFat a FAT16_EOC) := by
  induction n with
  | zero =>
    intro c _ hlist
    cases hlist
  | succ n ih =>
    intro c hc hlist
    refine (fat16FatGet h (by omega)).bind ?_
    rw [List.range'_succ] at hlist
    by_cases hfree : fs.fatAt c = FAT16_FREE_CLUSTER
    · rw [List.filter_cons_of_pos (by simpa using hfree)] at hlist
      obtain ⟨rfl, -⟩ := List.cons.inj hlist
      simp only [hfree, if_true]
      exact (fat16FatSet h c FAT16_EOC).bind (pure _ _)
    · rw [List.filter_cons_of_neg (by simpa using hfree)] at hlist
      simp only [hfree, if_false]
      exact ih (c + 1) (by omega) hlist

/-- The allocator takes the first free cluster. -/
theorem fat16ClusterAlloc (h : fs.Attached) {a : ℕ} {m : List ℕ} (hlist : fs.freeList = a :: m) :
    Passes fat16ClusterAlloc fs (some a) (fs.setFat a FAT16_EOC) := by
  intro rest
  have hlast : FAT16_CLUSTER_MIN ≤ fs.header.lastCluster + 1 := by
    obtain ⟨hmin, hain, -⟩ := Fat16.mem_freeList.mp (show a ∈ fs.freeList by rw [hlist]; simp)
    omega
  obtain ⟨faults, hrun⟩ := clusterAllocFrom h _ FAT16_CLUSTER_MIN (by omega) hlist rest
  refine ⟨faults, ?_⟩
  rw [fat16ClusterAlloc_search]
  exact hrun

end Passes

end LizardOs.Fat
