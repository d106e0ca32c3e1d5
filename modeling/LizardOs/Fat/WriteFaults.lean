import LizardOs.Fat.Faults

/-!
# Runs with failing writes

A failing sector write leaves its sector as it was, and a failing allocation leaves no object.  As long as the reads
succeed, the loops that only read a volume give the answer of a run without faults.  `Reader` says so of a routine, and
counts the transfers it makes: on a volume with given outcomes it uses up that many of them and changes nothing else.
-/

namespace LizardOs.Fat

open LizardOs.Lib

variable {fs : Fat16} {α β κ : Type}

/-- The volume with other outcomes of the transfers and allocations to come. -/
def Fat16.withOutcomes (fs : Fat16) (io : List (IoOp → ℕ → Bool)) (alloc : List Bool) : Fat16 :=
  { fs with ioFaults := io, allocFaults := alloc }

@[simp] theorem Fat16.withOutcomes_header (fs : Fat16) (io : List (IoOp → ℕ → Bool)) (alloc : List Bool) :
    (fs.withOutcomes io alloc).header = fs.header := rfl

/-- Every read succeeds. -/
def ReadsOk (io : List (IoOp → ℕ → Bool)) : Prop := ∀ fault ∈ io, ∀ sector, fault .read sector = false

theorem ReadsOk.drop {io : List (IoOp → ℕ → Bool)} (h : ReadsOk io) (k : ℕ) : ReadsOk (io.drop k) :=
  fun fault hf => h fault (List.mem_of_mem_drop hf)

/-- On a volume without faults the routine leaves the volume alone; on the same volume with failing writes and
allocations to come it gives the same answer and uses up the outcomes of its own transfers. -/
def Reader (m : Fs α) : Prop :=
  ∀ fs r fs', fs.NoFaults → m fs = some (r, fs') → fs' = fs ∧
    ∃ k, ∀ io alloc, ReadsOk io → m (fs.withOutcomes io alloc) = some (r, fs.withOutcomes (io.drop k) alloc)

namespace Reader

theorem pure (a : α) : Reader (Pure.pure a : Fs α) := by
  intro fs r fs' _ h
  rw [Prog.pure_apply, Option.some.injEq, Prod.mk.injEq] at h
  obtain ⟨rfl, rfl⟩ := h
  exact ⟨rfl, 0, fun io alloc _ => rfl⟩

theorem diverge : Reader (Prog.diverge : Fs α) := by
  intro fs r fs' _ h
  cases h

theorem bind {m : Fs α} {f : α → Fs β} (hm : Reader m) (hf : ∀ a, Reader (f a)) : Reader (m >>= f) := by
  intro fs r fs' hq h
  obtain ⟨a, fs1, hrun, hrest⟩ := Prog.bind_eq_some.mp h
  obtain ⟨rfl, k, hk⟩ := hm fs a fs1 hq hrun
  obtain ⟨rfl, k', hk'⟩ := hf a fs1 r fs' hq hrest
  refine ⟨rfl, k + k', fun io alloc hio => ?_⟩
  rw [Prog.bind_of_eq (hk io alloc hio), hk' _ _ (hio.drop k), List.drop_drop]

/-- A routine that looks at the volume for something other than the outcomes. -/
theorem get {f : Fat16 → Fs α} (hsame : ∀ fs io alloc, f (fs.withOutcomes io alloc) = f fs)
    (hf : ∀ fs, Reader (f fs)) : Reader (Prog.get >>= f) := by
  intro fs r fs' hq h
  obtain ⟨rfl, k, hk⟩ := hf fs fs r fs' hq h
  refine ⟨rfl, k, fun io alloc hio => ?_⟩
  show f (fs'.withOutcomes io alloc) (fs'.withOutcomes io alloc) = _
  rw [hsame, hk io alloc hio]

theorem blkDevRead (sector : ℕ) : Reader (blkDevRead sector) := by
  intro fs r fs' hq h
  rw [blkDevRead_ok hq] at h
  obtain ⟨rfl, rfl⟩ := by simpa only [Option.some.injEq, Prod.mk.injEq] using h
  refine ⟨rfl, 1, fun io alloc hio => ?_⟩
  cases io with
  | nil => rfl
  | cons fault rest =>
    have hread : fault .read sector = false := hio fault (by simp) sector
    simp only [Fat.blkDevRead, Fat16.withOutcomes, hread, Bool.false_eq_true, if_false, List.drop_succ_cons,
      List.drop_zero]

theorem ite {c : Prop} [Decidable c] {m m' : Fs α} (hm : Reader m) (hm' : Reader m') : Reader (if c then m else m') := by
  split
  · exact hm
  · exact hm'

theorem fat16FatGet (cluster : ℕ) : Reader (fat16FatGet cluster) := by
  have hdisk : ∀ sector off, Reader (fatFromDisk sector off) := by
    intro sector off
    refine (blkDevRead _).bind fun r => ?_
    cases r with
    | none => exact pure _
    | some buf => exact pure _
  refine get (fun fs io alloc => rfl) fun fs => ?_
  cases hcache : fs.fatCache with
  | none => exact hdisk _ _
  | some cache => exact ite (pure _) (hdisk _ _)

theorem fat16NextCluster (cluster : ℕ) : Reader (fat16NextCluster cluster) := by
  refine (fat16FatGet cluster).bind fun r => ?_
  cases r with
  | none => exact pure _
  | some next => exact pure _

theorem fat16DirRead (loc : DirLoc) : Reader (fat16DirRead loc) := by
  refine (blkDevRead _).bind fun r => ?_
  cases r with
  | none => exact pure _
  | some buf => exact pure _

section Scan

variable {slot : SlotCb κ} (hslot : ∀ c0 loc ctx, Reader (slot c0 loc ctx))

include hslot

theorem scanSector (buf : Buf) (lba n : ℕ) : ∀ i ctx, Reader (scanSector slot buf lba n i ctx) := by
  induction n with
  | zero =>
    intro i ctx
    exact pure _
  | succ n ih =>
    intro i ctx
    exact (hslot _ _ _).bind fun p => ite (pure _) (ih _ _)

theorem scanSectors (per n : ℕ) : ∀ lba ctx, Reader (scanSectors slot per n lba ctx) := by
  induction n with
  | zero =>
    intro lba ctx
    exact pure _
  | succ n ih =>
    intro lba ctx
    refine (blkDevRead _).bind fun r => ?_
    cases r with
    | none => exact pure _
    | some buf => exact (scanSector hslot buf lba per 0 ctx).bind fun p => ite (pure _) (ih _ _)

theorem scanClusters (n : ℕ) : ∀ cluster ctx, Reader (scanClusters slot n cluster ctx) := by
  induction n with
  | zero =>
    intro cluster ctx
    exact diverge
  | succ n ih =>
    intro cluster ctx
    refine ite (get (fun fs io alloc => rfl) fun fs => ?_) (pure _)
    refine (scanSectors hslot _ _ _ _).bind fun p => ite (pure _) ?_
    exact (fat16NextCluster cluster).bind fun next => ih _ _

theorem fat16DirScan (dirFirst : ℕ) (ctx : κ) : Reader (fat16DirScan dirFirst slot ctx) :=
  get (fun _ _ _ => rfl) fun _ => ite (scanSectors hslot _ _ _ _) (scanClusters hslot _ _ _)

end Scan

theorem findSlot (name : CStr) (c0 : UInt8) (loc : DirLoc) (ctx : Option (DirLoc × Fat16Directory)) :
    Reader (findSlot name c0 loc ctx) := by
  refine ite (pure _) (ite (pure _) ((fat16DirRead loc).bind fun r => ?_))
  cases r with
  | none => exact pure _
  | some ent => exact ite (pure _) (ite (pure _) (pure _))

theorem fat16DirFind (dirFirst : ℕ) (name : CStr) : Reader (fat16DirFind dirFirst name) :=
  (fat16DirScan (findSlot name) dirFirst none).bind fun _ => pure _

theorem freeSlot (c0 : UInt8) (loc : DirLoc) (ctx : Option DirLoc) : Reader (freeSlot c0 loc ctx) :=
  ite (pure _) (pure _)

theorem lastClusterFrom (n : ℕ) : ∀ last c, Reader (lastClusterFrom n last c) := by
  induction n with
  | zero =>
    intro last c
    exact diverge
  | succ n ih =>
    intro last c
    exact ite ((fat16NextCluster c).bind fun next => ih _ _) (pure _)

end Reader

/-! ### The allocator -/

theorem clusterAllocFrom_outcomes (hm : fs.Mounted) (n : ℕ) : ∀ c, c + n ≤ fs.header.lastCluster + 1 →
    ∃ k, ∀ io alloc, ReadsOk io → clusterAllocFrom n c (fs.withOutcomes io alloc) =
      allocFirst ((List.range' c n).filter fun b => decide (fs.fatAt b = FAT16_FREE_CLUSTER))
        (fs.withOutcomes (io.drop k) alloc) := by
  induction n with
  | zero =>
    intro c _
    exact ⟨0, fun io alloc _ => rfl⟩
  | succ n ih =>
    intro c hc
    obtain ⟨-, k, hk⟩ := Reader.fat16FatGet c fs _ fs hm.noFaults (fat16FatGet_ok hm (by omega))
    rw [List.range'_succ]
    by_cases hfree : fs.fatAt c = FAT16_FREE_CLUSTER
    · refine ⟨k, fun io alloc hio => ?_⟩
      rw [List.filter_cons_of_pos (by simpa using hfree)]
      simp only [clusterAllocFrom, allocFirst, Prog.bind_apply, hk io alloc hio, Prog.obind_some, hfree, if_true]
    · obtain ⟨k', hk'⟩ := ih (c + 1) (by omega)
      refine ⟨k + k', fun io alloc hio => ?_⟩
      rw [List.filter_cons_of_neg (by simpa using hfree), ← List.drop_drop, ← hk' _ alloc (hio.drop k)]
      simp only [clusterAllocFrom, Prog.bind_apply, hk io alloc hio, Prog.obind_some, hfree, if_false]

/-- The allocator searches with reads, then marks the first free cluster. -/
theorem fat16ClusterAlloc_outcomes (hm : fs.Mounted) :
    ∃ k, ∀ io alloc, ReadsOk io → fat16ClusterAlloc (fs.withOutcomes io alloc) =
      allocFirst fs.freeList (fs.withOutcomes (io.drop k) alloc) := by
  have heq : ∀ io alloc, fat16ClusterAlloc (fs.withOutcomes io alloc) = clusterAllocFrom
      (fs.header.lastCluster + 1 - FAT16_CLUSTER_MIN) FAT16_CLUSTER_MIN (fs.withOutcomes io alloc) := by
    intro io alloc
    rw [fat16ClusterAlloc_search, Fat16.withOutcomes_header]
  by_cases hlast : FAT16_CLUSTER_MIN ≤ fs.header.lastCluster + 1
  · obtain ⟨k, hk⟩ := clusterAllocFrom_outcomes hm (fs.header.lastCluster + 1 - FAT16_CLUSTER_MIN) FAT16_CLUSTER_MIN
      (by omega)
    refine ⟨k, fun io alloc hio => ?_⟩
    rw [heq, hk io alloc hio, Fat16.freeList]
  · refine ⟨0, fun io alloc _ => ?_⟩
    rw [heq, Fat16.freeList, show fs.header.lastCluster + 1 - FAT16_CLUSTER_MIN = 0 by omega]
    rfl

/-! ### One failing write -/

/-- The outcome of a transfer that fails if it is a write. -/
def failWrite : IoOp → ℕ → Bool
  | .read, _ => false
  | .write, _ => true

/-- `n` transfers succeed, and the one after them fails if it is a write. -/
def writeFails (n : ℕ) : List (IoOp → ℕ → Bool) := List.replicate n noFault ++ [failWrite]

theorem readsOk_writeFails (n : ℕ) : ReadsOk (writeFails n) := by
  intro fault hf sector
  rcases List.mem_append.mp hf with hf | hf
  · rw [List.eq_of_mem_replicate hf]
    rfl
  · rw [List.mem_singleton.mp hf]
    rfl

theorem drop_writeFails (k n : ℕ) : (writeFails (k + n)).drop k = writeFails n := by
  rw [writeFails, List.replicate_add, List.append_assoc, List.drop_left' (by simp)]
  rfl

theorem Fat16.withOutcomes_nil (h : fs.NoFaults) (io : List (IoOp → ℕ → Bool)) :
    fs.withOutcomes io [] = fs.withFaults io := by
  rw [← h.alloc]
  rfl

theorem blkDevWrite_failWrite {rest : List (IoOp → ℕ → Bool)} (h : fs.ioFaults = failWrite :: rest) (sector : ℕ)
    (buf : Buf) : blkDevWrite sector buf fs = some (false, fs.withFaults rest) := by
  simp only [blkDevWrite, h]
  rfl

theorem zeroSectors_failWrite {rest : List (IoOp → ℕ → Bool)} (h : fs.ioFaults = failWrite :: rest) (n lba : ℕ) :
    zeroSectors (n + 1) lba fs = some (false, fs.withFaults rest) := by
  simp only [zeroSectors, Prog.bind_apply, blkDevWrite_failWrite h, Prog.obind_some, Bool.false_eq_true, if_false,
    Prog.pure_apply]

/-- A table update whose first write fails changes nothing. -/
theorem fat16FatSet_failWrite (hs : fs.header.Sound) {rest : List (IoOp → ℕ → Bool)} (c value : ℕ)
    (hf : fs.ioFaults = noFault :: failWrite :: rest) : fat16FatSet c value fs = some (false, fs.withFaults rest) := by
  obtain ⟨n, hn⟩ : ∃ n, fs.header.numFats.toNat = n + 1 := ⟨fs.header.numFats.toNat - 1, by have := hs.fats; omega⟩
  have hwrite : ∀ sector buf, blkDevWrite sector buf (fs.withFaults (failWrite :: rest)) =
      some (false, fs.withFaults rest) := fun sector buf => blkDevWrite_failWrite rfl sector buf
  simp only [fat16FatSet, Prog.bind_apply, Prog.get_apply, Prog.obind_some, hn, fatSetCopies, blkDevRead_noFault hf,
    hwrite, Prog.pure_apply, Bool.false_eq_true, if_false]

/-- The allocator takes its cluster before the write that fails. -/
theorem allocFirst_writeFails (hs : fs.header.Sound) (a : ℕ) (m : List ℕ) (n : ℕ) :
    allocFirst (a :: m) (fs.withFaults (writeFails (2 * fs.header.numFats.toNat + n))) =
      some (some a, (fs.setFat a FAT16_EOC).withFaults (writeFails n)) := by
  have hfaults : writeFails (2 * fs.header.numFats.toNat + n) =
      List.replicate (2 * fs.header.numFats.toNat) noFault ++ writeFails n := by
    rw [writeFails, List.replicate_add, List.append_assoc]
    rfl
  have hs1 : (fs.withFaults (writeFails (2 * fs.header.numFats.toNat + n))).header.Sound := hs
  have hset := fat16FatSet_noFault hs1 a FAT16_EOC hfaults
  rw [Fat16.withFaults_setFat, Fat16.withFaults_withFaults] at hset
  simp only [allocFirst, Prog.bind_apply, hset, Prog.obind_some, if_true, Prog.pure_apply]

end LizardOs.Fat
