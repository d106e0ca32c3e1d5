import LizardOs.Fat.Directory
import LizardOs.Lib.FoldStop
import Mathlib.Data.List.TakeWhile

/-!
# The slots of a directory, and what the loops over them compute

On a mounted volume without faults the directory loops are folds over a list of slots: the fixed root
region, or the slots of the clusters of a chain in order.  `fat16DirScan_ok` and `fat16WalkDir_ok` state this
once for every callback that leaves the volume alone; the searches built on the scanner follow from it.
-/

namespace LizardOs.Fat

open LizardOs.Lib

variable {κ : Type}

/-! ### Slot lists -/

/-- Slots `i`, `i + 1`, …, `i + n - 1` of a sector. -/
def sectorSlots (lba : ℕ) : ℕ → ℕ → List DirLoc
  | 0, _ => []
  | n + 1, i => ⟨lba, i * FAT16_DIR_ENTRY_SIZE⟩ :: sectorSlots lba n (i + 1)

/-- The slots of `n` consecutive sectors. -/
def regionSlots (perSector : ℕ) : ℕ → ℕ → List DirLoc
  | 0, _ => []
  | n + 1, lba => sectorSlots lba perSector 0 ++ regionSlots perSector n (lba + 1)

namespace FatHeader

variable (h : FatHeader)

/-- The slots of the fixed root directory. -/
def rootSlots : List DirLoc := regionSlots h.perSector h.rootDirSectors h.rootDirLba

/-- The slots of a data cluster. -/
def clusterSlots (c : ℕ) : List DirLoc := regionSlots h.perSector h.spc (h.clusterToLba c)

/-- The slots of the directory with first cluster `d` and cluster chain `l`. -/
def dirSlots (d : ℕ) (l : List ℕ) : List DirLoc :=
  if d = 0 then h.rootSlots else l.flatMap h.clusterSlots

end FatHeader

theorem mem_sectorSlots {lba n i : ℕ} {loc : DirLoc} :
    loc ∈ sectorSlots lba n i ↔
      loc.lba = lba ∧ ∃ k, i ≤ k ∧ k < i + n ∧ loc.off = k * FAT16_DIR_ENTRY_SIZE := by
  induction n generalizing i with
  | zero =>
    simp only [sectorSlots, List.not_mem_nil, false_iff]
    rintro ⟨-, k, h1, h2, -⟩
    omega
  | succ n ih =>
    rw [sectorSlots, List.mem_cons, ih]
    constructor
    · rintro (rfl | ⟨h1, k, h2, h3, h4⟩)
      · exact ⟨rfl, i, le_refl i, by omega, rfl⟩
      · exact ⟨h1, k, by omega, by omega, h4⟩
    · rintro ⟨h1, k, h2, h3, h4⟩
      by_cases hk : k = i
      · left
        subst hk
        cases loc
        simp_all
      · right
        exact ⟨h1, k, by omega, by omega, h4⟩

theorem mem_regionSlots {per n lba : ℕ} {loc : DirLoc} :
    loc ∈ regionSlots per n lba ↔
      lba ≤ loc.lba ∧ loc.lba < lba + n ∧
        ∃ k, k < per ∧ loc.off = k * FAT16_DIR_ENTRY_SIZE := by
  induction n generalizing lba with
  | zero =>
    simp only [regionSlots, List.not_mem_nil, false_iff]
    rintro ⟨h1, h2, -⟩
    omega
  | succ n ih =>
    rw [regionSlots, List.mem_append, mem_sectorSlots, ih]
    constructor
    · rintro (⟨h1, k, -, h3, h4⟩ | ⟨h1, h2, h3⟩)
      · exact ⟨by omega, by omega, k, by omega, h4⟩
      · exact ⟨by omega, by omega, h3⟩
    · rintro ⟨h1, h2, k, h3, h4⟩
      by_cases hl : loc.lba = lba
      · exact .inl ⟨hl, k, by omega, by omega, h4⟩
      · exact .inr ⟨by omega, by omega, k, h3, h4⟩

theorem sectorSlots_nodup (lba n i : ℕ) : (sectorSlots lba n i).Nodup := by
  induction n generalizing i with
  | zero => exact List.nodup_nil
  | succ n ih =>
    rw [sectorSlots, List.nodup_cons]
    refine ⟨?_, ih (i + 1)⟩
    rw [mem_sectorSlots]
    rintro ⟨-, k, h1, h2, h3⟩
    simp only [FAT16_DIR_ENTRY_SIZE] at h3
    omega

theorem regionSlots_nodup (per n lba : ℕ) : (regionSlots per n lba).Nodup := by
  induction n generalizing lba with
  | zero => exact List.nodup_nil
  | succ n ih =>
    rw [regionSlots, List.nodup_append]
    refine ⟨sectorSlots_nodup _ _ _, ih _, ?_⟩
    rintro a ha b hb rfl
    rw [mem_sectorSlots] at ha
    rw [mem_regionSlots] at hb
    omega

/-! ### Chains of clusters -/

namespace Fat16

/-- `c` heads a chain through the distinct clusters `l` of the volume, closed by the value `t`. -/
structure Chain (fs : Fat16) (c : ℕ) (l : List ℕ) (t : ℕ) : Prop where
  path : Path fs.fatAt fat16ClusterValid c l t
  ended : fat16ClusterValid t = false
  nodup : l.Nodup
  inside : ∀ x ∈ l, x ≤ fs.header.lastCluster

/-- The clusters of the directory with first cluster `d`; the root directory has none. -/
def DirChain (fs : Fat16) (d : ℕ) (l : List ℕ) : Prop :=
  (d = 0 ∧ l = []) ∨ (d ≠ 0 ∧ ∃ t, fs.Chain d l t)

/-- The clusters a loop over the directory with first cluster `d` goes through, whatever else the table
holds: none for the root directory, else the chain of links from `d` on. -/
def DirPath (fs : Fat16) (d : ℕ) (l : List ℕ) : Prop :=
  (d = 0 ∧ l = []) ∨
    (d ≠ 0 ∧ ∃ t, Path fs.linkAt fat16ClusterValid d l t ∧ fat16ClusterValid t = false)

/-- The first byte of a slot. -/
def firstByte (fs : Fat16) (loc : DirLoc) : UInt8 := fs.disk loc.lba loc.off

theorem entryAt_first (fs : Fat16) (loc : DirLoc) :
    (fs.entryAt loc).first = fs.firstByte loc := by
  simp [entryAt, Fat16Directory.first, Fat16Directory.ofBytes, firstByte]

end Fat16

theorem Fat16.Chain.length_lt {fs : Fat16} {c t : ℕ} {l : List ℕ} (h : fs.Chain c l t) :
    l.length < CLUSTER_STEPS := length_lt_steps h.nodup h.inside

theorem valid_iff {c : ℕ} :
    fat16ClusterValid c = true ↔ FAT16_CLUSTER_MIN ≤ c ∧ c ≤ FAT16_CLUSTER_MAX := by
  simp [fat16ClusterValid]

theorem valid_min_le {c : ℕ} (hc : fat16ClusterValid c = true) : FAT16_CLUSTER_MIN ≤ c :=
  (valid_iff.mp hc).1

/-- A chain of links is shorter than the walks are allowed to be. -/
theorem path_length_lt {next : ℕ → ℕ} {c t : ℕ} {l : List ℕ}
    (hp : Path next fat16ClusterValid c l t) (ht : fat16ClusterValid t = false) :
    l.length < CLUSTER_STEPS := by
  have hlt : ∀ x ∈ l, x < FAT16_CLUSTER_MAX + 1 := by
    intro x hx
    have := (valid_iff.mp (hp.ok_of_mem hx)).2
    omega
  have hmax : FAT16_CLUSTER_MAX + 1 < CLUSTER_STEPS := by decide
  exact Nat.lt_of_le_of_lt (nodup_length_le (hp.nodup ht) hlt) hmax

theorem Fat16.DirChain.dirPath {fs : Fat16} (hm : fs.Mounted) {d : ℕ} {l : List ℕ}
    (h : fs.DirChain d l) : fs.DirPath d l := by
  rcases h with h | ⟨hd, t, hc⟩
  · exact .inl h
  · exact .inr ⟨hd, t, hc.path.congr fun x hx => fs.linkAt_eq_fatAt hm (hc.inside x hx), hc.ended⟩

/-! ### The scanner -/

/-- A slot callback that answers `g` on the slots of `ls` and leaves the volume alone. -/
def SlotPure (fs : Fat16) (slot : SlotCb κ) (g : DirLoc → κ → ℤ × κ) (ls : List DirLoc) : Prop :=
  ∀ loc ∈ ls, ∀ ctx, slot (fs.firstByte loc) loc ctx fs = some (g loc ctx, fs)

variable {fs : Fat16} {slot : SlotCb κ} {g : DirLoc → κ → ℤ × κ}

theorem scanSector_ok {lba : ℕ} (n : ℕ) : ∀ (i : ℕ) (ctx : κ),
    SlotPure fs slot g (sectorSlots lba n i) →
    scanSector slot (fs.disk lba) lba n i ctx fs =
      some (foldStop g (sectorSlots lba n i) ctx, fs) := by
  induction n with
  | zero => intro i ctx _; rfl
  | succ n ih =>
    intro i ctx h
    have h0 : slot (fs.disk lba (i * FAT16_DIR_ENTRY_SIZE)) ⟨lba, i * FAT16_DIR_ENTRY_SIZE⟩ ctx fs
        = some (g ⟨lba, i * FAT16_DIR_ENTRY_SIZE⟩ ctx, fs) :=
      h ⟨lba, i * FAT16_DIR_ENTRY_SIZE⟩ (by simp [sectorSlots]) ctx
    have hrest := ih (i + 1) (g ⟨lba, i * FAT16_DIR_ENTRY_SIZE⟩ ctx).2
      fun loc hloc => h loc (by rw [sectorSlots]; exact List.mem_cons_of_mem _ hloc)
    simp only [scanSector, Prog.bind_apply, h0, Prog.obind_some, Prog.ite_apply, hrest,
      Prog.pure_apply, sectorSlots, foldStop]
    split <;> rfl

theorem scanSectors_ok (hf : fs.NoFaults) {per : ℕ} (n : ℕ) : ∀ (lba : ℕ) (ctx : κ),
    SlotPure fs slot g (regionSlots per n lba) →
    scanSectors slot per n lba ctx fs = some (foldStop g (regionSlots per n lba) ctx, fs) := by
  induction n with
  | zero => intro lba ctx _; rfl
  | succ n ih =>
    intro lba ctx h
    have h0 : scanSector slot (fs.disk lba) lba per 0 ctx fs =
        some (foldStop g (sectorSlots lba per 0) ctx, fs) :=
      scanSector_ok per 0 ctx
        fun loc hloc => h loc (by rw [regionSlots]; exact List.mem_append_left _ hloc)
    have hrest := ih (lba + 1) (foldStop g (sectorSlots lba per 0) ctx).2
      fun loc hloc => h loc (by rw [regionSlots]; exact List.mem_append_right _ hloc)
    simp only [scanSectors, Prog.bind_apply, blkDevRead_ok hf, Prog.obind_some, h0, Prog.ite_apply,
      hrest, Prog.pure_apply, regionSlots, foldStop_append]
    split <;> rfl

theorem scanClusters_ok (hf : fs.NoFaults) {t : ℕ} {l : List ℕ} : ∀ {c n : ℕ} (ctx : κ),
    Path fs.linkAt fat16ClusterValid c l t → fat16ClusterValid t = false → l.length < n →
    SlotPure fs slot g (l.flatMap fs.header.clusterSlots) →
    scanClusters slot n c ctx fs =
      some (foldStop g (l.flatMap fs.header.clusterSlots) ctx, fs) := by
  induction l with
  | nil =>
    intro c n ctx hp ht hn _
    obtain ⟨m, rfl⟩ : ∃ m, n = m + 1 := ⟨n - 1, by simp at hn; omega⟩
    rw [path_nil] at hp
    subst hp
    simp only [scanClusters, ht, Bool.false_eq_true, if_false, Prog.pure_apply, List.flatMap_nil,
      foldStop]
  | cons a l ih =>
    intro c n ctx hp ht hn h
    obtain ⟨m, rfl⟩ : ∃ m, n = m + 1 := ⟨n - 1, by simp at hn; omega⟩
    obtain ⟨rfl, hok, hp⟩ := hp
    have hrest := ih (n := m) (foldStop g (fs.header.clusterSlots c) ctx).2 hp ht
      (by simp at hn; omega)
      fun loc hloc => h loc (by rw [List.flatMap_cons]; exact List.mem_append_right _ hloc)
    have h0 : scanSectors slot fs.header.perSector fs.header.spc (fs.header.clusterToLba c) ctx fs
        = some (foldStop g (fs.header.clusterSlots c) ctx, fs) :=
      scanSectors_ok hf _ _ ctx
        fun loc hloc => h loc (by rw [List.flatMap_cons]; exact List.mem_append_left _ hloc)
    simp only [scanClusters, hok, if_true, Prog.bind_apply, Prog.get_apply, Prog.obind_some, h0,
      Prog.ite_apply, fat16NextCluster_link hf, hrest, Prog.pure_apply,
      List.flatMap_cons, foldStop_append]
    split <;> rfl

/-- **The scanner is a fold over the directory's slots.** -/
theorem fat16DirScan_path (hf : fs.NoFaults) {d : ℕ} {l : List ℕ} (hd : fs.DirPath d l) (ctx : κ)
    (h : SlotPure fs slot g (fs.header.dirSlots d l)) :
    fat16DirScan d slot ctx fs = some (foldStop g (fs.header.dirSlots d l) ctx, fs) := by
  simp only [fat16DirScan, Prog.bind_apply, Prog.get_apply, Prog.obind_some, Prog.ite_apply]
  rcases hd with ⟨rfl, rfl⟩ | ⟨hd, t, hp, ht⟩
  · rw [if_pos rfl]
    exact scanSectors_ok hf _ _ _ h
  · rw [FatHeader.dirSlots, if_neg hd] at h ⊢
    rw [if_neg hd]
    exact scanClusters_ok hf ctx hp ht (path_length_lt hp ht) h

theorem fat16DirScan_ok (hm : fs.Mounted) {d : ℕ} {l : List ℕ} (hd : fs.DirChain d l) (ctx : κ)
    (h : SlotPure fs slot g (fs.header.dirSlots d l)) :
    fat16DirScan d slot ctx fs = some (foldStop g (fs.header.dirSlots d l) ctx, fs) :=
  fat16DirScan_path hm.noFaults (hd.dirPath hm) ctx h

/-! ### Entries in use -/

namespace Fat16

/-- The slots before the first end marker. -/
def beforeEnd (fs : Fat16) (ls : List DirLoc) : List DirLoc :=
  ls.takeWhile fun loc => decide (fs.firstByte loc ≠ FAT16_DIR_ENTRY_END)

/-- The live slots: those before the first end marker that hold an entry in use. -/
def live (fs : Fat16) (ls : List DirLoc) : List DirLoc :=
  (fs.beforeEnd ls).filter fun loc => fat16EntryValid (fs.entryAt loc)

/-- The first live slot whose entry has the given name. -/
def findIn (fs : Fat16) (name : CStr) (ls : List DirLoc) : Option DirLoc :=
  (fs.live ls).find? fun loc => decide (fat16NameCmp name (fs.entryAt loc) = 0)

end Fat16

theorem fat16EntryValid_of_deleted {e : Fat16Directory} (h : e.first = FAT16_DIR_ENTRY_DELETED) :
    fat16EntryValid e = false := by
  simp [fat16EntryValid, h]

theorem fat16EntryValid_of_end {e : Fat16Directory} (h : e.first = FAT16_DIR_ENTRY_END) :
    fat16EntryValid e = false := by
  simp [fat16EntryValid, h]

/-- An entry in use does not end a directory. -/
theorem first_ne_end_of_valid {e : Fat16Directory} (h : fat16EntryValid e = true) :
    e.first ≠ FAT16_DIR_ENTRY_END := by
  intro hend
  rw [fat16EntryValid_of_end hend] at h
  cases h

theorem fat16DirRead_ok (hf : fs.NoFaults) (loc : DirLoc) :
    fat16DirRead loc fs = some (some (fs.entryAt loc), fs) := by
  simp only [fat16DirRead, Prog.bind_apply, blkDevRead_ok hf, Prog.obind_some, Prog.pure_apply]
  rfl

/-- What `find_slot` answers on a slot. -/
def Fat16.findStep (fs : Fat16) (name : CStr) (loc : DirLoc)
    (ctx : Option (DirLoc × Fat16Directory)) : ℤ × Option (DirLoc × Fat16Directory) :=
  if fs.firstByte loc = FAT16_DIR_ENTRY_END then (-1, ctx)
  else if fat16EntryValid (fs.entryAt loc) = false then (0, ctx)
  else if fat16NameCmp name (fs.entryAt loc) ≠ 0 then (0, ctx)
  else (1, some (loc, fs.entryAt loc))

theorem findSlot_pure (hf : fs.NoFaults) (name : CStr) (ls : List DirLoc) :
    SlotPure fs (findSlot name) (fs.findStep name) ls := by
  intro loc _ ctx
  unfold findSlot Fat16.findStep
  by_cases hend : fs.firstByte loc = FAT16_DIR_ENTRY_END
  · simp only [hend, if_true, Prog.pure_apply]
  by_cases hdel : fs.firstByte loc = FAT16_DIR_ENTRY_DELETED
  · have hv : fat16EntryValid (fs.entryAt loc) = false :=
      fat16EntryValid_of_deleted ((fs.entryAt_first loc).trans hdel)
    simp only [if_neg hend, if_pos hdel, Prog.pure_apply, hv, if_true]
  · simp only [if_neg hend, if_neg hdel, Prog.bind_apply, fat16DirRead_ok hf, Prog.obind_some,
      Prog.ite_apply, Prog.pure_apply]
    split
    · rfl
    · split <;> rfl

theorem foldStop_findStep (fs : Fat16) (name : CStr) (ls : List DirLoc) :
    (if (foldStop (fs.findStep name) ls none).1 = 1 then (foldStop (fs.findStep name) ls none).2
      else none) = (fs.findIn name ls).map fun loc => (loc, fs.entryAt loc) := by
  induction ls with
  | nil => rfl
  | cons loc ls ih =>
    by_cases hend : fs.firstByte loc = FAT16_DIR_ENTRY_END
    · simp [foldStop, Fat16.findStep, hend, Fat16.findIn, Fat16.live, Fat16.beforeEnd]
    by_cases hv : fat16EntryValid (fs.entryAt loc) = false
    · have hlive : fs.live (loc :: ls) = fs.live ls := by
        simp [Fat16.live, Fat16.beforeEnd, hend, hv]
      have hstep : fs.findStep name loc none = (0, none) := by
        simp [Fat16.findStep, hend, hv]
      simp only [foldStop, hstep, ne_eq, not_true_eq_false, if_false, Fat16.findIn, hlive]
      exact ih
    have hlive : fs.live (loc :: ls) = loc :: fs.live ls := by
      simp [Fat16.live, Fat16.beforeEnd, hend, hv]
    by_cases hcmp : fat16NameCmp name (fs.entryAt loc) = 0
    · have hstep : fs.findStep name loc none = (1, some (loc, fs.entryAt loc)) := by
        simp [Fat16.findStep, hend, hv, hcmp]
      simp [foldStop, hstep, Fat16.findIn, hlive, hcmp]
    · have hstep : fs.findStep name loc none = (0, none) := by
        simp [Fat16.findStep, hend, hv, hcmp]
      have hfind : fs.findIn name (loc :: ls) = fs.findIn name ls := by
        simp [Fat16.findIn, hlive, hcmp]
      simp only [foldStop, hstep, ne_eq, not_true_eq_false, if_false, hfind]
      exact ih

/-- **Finding a name**: the first live slot of that name. -/
theorem fat16DirFind_path (hf : fs.NoFaults) {d : ℕ} {l : List ℕ} (hd : fs.DirPath d l)
    (name : CStr) :
    fat16DirFind d name fs =
      some ((fs.findIn name (fs.header.dirSlots d l)).map fun loc => (loc, fs.entryAt loc), fs) := by
  rw [← foldStop_findStep]
  simp only [fat16DirFind, Prog.bind_apply,
    fat16DirScan_path hf hd none (findSlot_pure hf name _), Prog.obind_some, Prog.pure_apply]

theorem fat16DirFind_ok (hm : fs.Mounted) {d : ℕ} {l : List ℕ} (hd : fs.DirChain d l)
    (name : CStr) :
    fat16DirFind d name fs =
      some ((fs.findIn name (fs.header.dirSlots d l)).map fun loc => (loc, fs.entryAt loc), fs) :=
  fat16DirFind_path hm.noFaults (hd.dirPath hm) name

/-! ### Emptiness and free slots -/

/-- A slot that makes its directory non-empty: an entry in use other than `.` and `..`. -/
def Fat16.child (fs : Fat16) (loc : DirLoc) : Bool :=
  fat16EntryValid (fs.entryAt loc) && !fat16IsDot (fs.entryAt loc)

theorem nonemptySlot_pure (hf : fs.NoFaults) (ls : List DirLoc) :
    SlotPure fs nonemptySlot (fun loc ctx => (if fs.child loc then 1 else 0, ctx)) ls := by
  intro loc _ ctx
  unfold nonemptySlot Fat16.child
  by_cases hend : fs.firstByte loc = FAT16_DIR_ENTRY_END
  · have hv : fat16EntryValid (fs.entryAt loc) = false :=
      fat16EntryValid_of_end ((fs.entryAt_first loc).trans hend)
    simp [hend, hv]
  by_cases hdel : fs.firstByte loc = FAT16_DIR_ENTRY_DELETED
  · have hv : fat16EntryValid (fs.entryAt loc) = false :=
      fat16EntryValid_of_deleted ((fs.entryAt_first loc).trans hdel)
    simp [hdel, hv]
  · simp only [if_neg hend, if_neg hdel, Prog.bind_apply, fat16DirRead_ok hf, Prog.obind_some,
      Prog.ite_apply, Prog.pure_apply]
    split <;> rfl

/-- **The emptiness test** looks at every slot, also past the end marker. -/
theorem fat16DirEmpty_path (hf : fs.NoFaults) {d : ℕ} {l : List ℕ} (hd : fs.DirPath d l) :
    fat16DirEmpty d fs = some ((fs.header.dirSlots d l).all fun loc => !fs.child loc, fs) := by
  have hfold : ∀ ls : List DirLoc,
      (foldStop (fun loc (ctx : Unit) => ((if fs.child loc then 1 else 0 : ℤ), ctx)) ls ()).1 =
        if ls.all (fun loc => !fs.child loc) then 0 else 1 := by
    intro ls
    induction ls with
    | nil => rfl
    | cons loc ls ih =>
      simp only [foldStop, List.all_cons]
      by_cases h : fs.child loc
      · simp [h]
      · simp [h, ih]
  simp only [fat16DirEmpty, Prog.bind_apply, fat16DirScan_path hf hd () (nonemptySlot_pure hf _),
    Prog.obind_some, Prog.pure_apply, hfold]
  by_cases h : (fs.header.dirSlots d l).all fun loc => !fs.child loc
  · simp [h]
  · simp [h]

theorem fat16DirEmpty_ok (hm : fs.Mounted) {d : ℕ} {l : List ℕ} (hd : fs.DirChain d l) :
    fat16DirEmpty d fs = some ((fs.header.dirSlots d l).all fun loc => !fs.child loc, fs) :=
  fat16DirEmpty_path hm.noFaults (hd.dirPath hm)

/-- A slot `fat16_dir_alloc_slot` may reuse. -/
def Fat16.reusable (fs : Fat16) (loc : DirLoc) : Bool :=
  decide (fs.firstByte loc = FAT16_DIR_ENTRY_END) ||
    decide (fs.firstByte loc = FAT16_DIR_ENTRY_DELETED)

theorem freeSlot_pure (ls : List DirLoc) :
    SlotPure fs freeSlot
      (fun loc ctx => if fs.reusable loc then (1, some loc) else (0, ctx)) ls := by
  intro loc _ ctx
  unfold freeSlot Fat16.reusable
  by_cases hend : fs.firstByte loc = FAT16_DIR_ENTRY_END
  · simp [hend]
  by_cases hdel : fs.firstByte loc = FAT16_DIR_ENTRY_DELETED
  · simp [hdel]
  · simp [hend, hdel]

theorem foldStop_freeSlot (fs : Fat16) (ls : List DirLoc) :
    foldStop (fun loc (ctx : Option DirLoc) => if fs.reusable loc then ((1 : ℤ), some loc)
      else (0, ctx)) ls none =
    match ls.find? fs.reusable with
    | none => (0, none)
    | some loc => (1, some loc) := by
  induction ls with
  | nil => rfl
  | cons loc ls ih =>
    by_cases h : fs.reusable loc
    · simp [foldStop, h]
    · simp only [Bool.not_eq_true] at h
      simp only [foldStop, h, Bool.false_eq_true, if_false, ne_eq, not_true_eq_false,
        List.find?_cons]
      exact ih

/-! ### The walk -/

/-- A walk callback that answers `g` on the slots of `ls` and leaves the volume alone. -/
def DirPure (fs : Fat16) (cb : DirCb κ) (g : DirLoc → ℕ → κ → ℤ × κ) (ls : List DirLoc) : Prop :=
  ∀ loc ∈ ls, ∀ off ctx, cb (fs.entryAt loc) off loc ctx fs = some (g loc off ctx, fs)

/-- The walk as a fold: stop at the end marker or at a non-zero code, count the offset. -/
def Fat16.walkFold (fs : Fat16) (g : DirLoc → ℕ → κ → ℤ × κ) : List DirLoc → Walk κ → Walk κ
  | [], w => w
  | loc :: ls, w =>
      if fs.firstByte loc = FAT16_DIR_ENTRY_END then { w with ended := true }
      else if (g loc w.offset w.ctx).1 ≠ 0 then
        { w with code := (g loc w.offset w.ctx).1, ctx := (g loc w.offset w.ctx).2 }
      else fs.walkFold g ls
        { w with
          offset := (w.offset + FAT16_DIR_ENTRY_SIZE) % 2 ^ 32
          ctx := (g loc w.offset w.ctx).2 }

theorem walkFold_append (fs : Fat16) (g : DirLoc → ℕ → κ → ℤ × κ) (ls ms : List DirLoc) :
    ∀ w : Walk κ, w.ended = false → w.code = 0 →
    fs.walkFold g (ls ++ ms) w =
      if (fs.walkFold g ls w).ended = true ∨ (fs.walkFold g ls w).code ≠ 0 then fs.walkFold g ls w
      else fs.walkFold g ms (fs.walkFold g ls w) := by
  induction ls with
  | nil =>
    intro w he hc
    simp [Fat16.walkFold, he, hc]
  | cons loc ls ih =>
    intro w he hc
    simp only [List.cons_append, Fat16.walkFold]
    split
    · simp
    · split
      · rename_i h
        simp [h]
      · exact ih _ he hc

/-- A walk sees only the slots before the end marker. -/
theorem walkFold_beforeEnd (fs : Fat16) (g : DirLoc → ℕ → κ → ℤ × κ) (ls : List DirLoc) :
    ∀ w : Walk κ, (fs.walkFold g ls w).ctx = (fs.walkFold g (fs.beforeEnd ls) w).ctx ∧
      (fs.walkFold g ls w).code = (fs.walkFold g (fs.beforeEnd ls) w).code := by
  induction ls with
  | nil => intro w; exact ⟨rfl, rfl⟩
  | cons loc ls ih =>
    intro w
    by_cases h : fs.firstByte loc = FAT16_DIR_ENTRY_END
    · simp [Fat16.walkFold, Fat16.beforeEnd, h]
    · have hb : fs.beforeEnd (loc :: ls) = loc :: fs.beforeEnd ls := by
        simp [Fat16.beforeEnd, h]
      rw [hb]
      simp only [Fat16.walkFold, h, if_false]
      split
      · exact ⟨rfl, rfl⟩
      · exact ih _

theorem mem_beforeEnd_ne {ls : List DirLoc} {loc : DirLoc} (h : loc ∈ fs.beforeEnd ls) :
    fs.firstByte loc ≠ FAT16_DIR_ENTRY_END := by
  simpa using List.mem_takeWhile_imp h

variable {cb : DirCb κ} {gw : DirLoc → ℕ → κ → ℤ × κ}

theorem walkSector_ok {lba : ℕ} (n : ℕ) : ∀ (i : ℕ) (w : Walk κ),
    DirPure fs cb gw (sectorSlots lba n i) →
    walkSector cb (fs.disk lba) lba n i w fs =
      some (fs.walkFold gw (sectorSlots lba n i) w, fs) := by
  induction n with
  | zero => intro i w _; rfl
  | succ n ih =>
    intro i w h
    have h0 : cb (fs.entryAt ⟨lba, i * FAT16_DIR_ENTRY_SIZE⟩) w.offset
        ⟨lba, i * FAT16_DIR_ENTRY_SIZE⟩ w.ctx fs =
          some (gw ⟨lba, i * FAT16_DIR_ENTRY_SIZE⟩ w.offset w.ctx, fs) :=
      h ⟨lba, i * FAT16_DIR_ENTRY_SIZE⟩ (by simp [sectorSlots]) w.offset w.ctx
    have he : Fat16Directory.ofBytes (fun j => fs.disk lba (i * FAT16_DIR_ENTRY_SIZE + j)) =
        fs.entryAt ⟨lba, i * FAT16_DIR_ENTRY_SIZE⟩ := rfl
    simp only [walkSector, he, fs.entryAt_first, Prog.ite_apply, Prog.pure_apply, Prog.bind_apply,
      h0, Prog.obind_some, sectorSlots, Fat16.walkFold]
    split
    · rfl
    · split
      · rfl
      · exact ih _ _ fun loc hloc => h loc (by rw [sectorSlots]; exact List.mem_cons_of_mem _ hloc)

theorem walkSectors_ended {per : ℕ} (n lba : ℕ) {w : Walk κ} (he : w.ended = true) :
    walkSectors cb per n lba w fs = some (w, fs) := by
  cases n with
  | zero => rfl
  | succ n => simp only [walkSectors, he, if_true, Prog.pure_apply]

theorem walkSectors_ok (hf : fs.NoFaults) {per : ℕ} (n : ℕ) : ∀ (lba : ℕ) (w : Walk κ),
    w.ended = false → w.code = 0 → DirPure fs cb gw (regionSlots per n lba) →
    walkSectors cb per n lba w fs = some (fs.walkFold gw (regionSlots per n lba) w, fs) := by
  induction n with
  | zero => intro lba w _ _ _; rfl
  | succ n ih =>
    intro lba w he hc h
    have h0 : walkSector cb (fs.disk lba) lba per 0 w fs =
        some (fs.walkFold gw (sectorSlots lba per 0) w, fs) :=
      walkSector_ok per 0 w
        fun loc hloc => h loc (by rw [regionSlots]; exact List.mem_append_left _ hloc)
    simp only [walkSectors, he, Bool.false_eq_true, if_false, Prog.bind_apply, blkDevRead_ok hf,
      Prog.obind_some, h0, Prog.ite_apply, Prog.pure_apply, regionSlots,
      walkFold_append fs gw _ _ w he hc]
    by_cases hcode : (fs.walkFold gw (sectorSlots lba per 0) w).code = 0
    · by_cases hend : (fs.walkFold gw (sectorSlots lba per 0) w).ended = true
      · simp [hcode, hend, walkSectors_ended n (lba + 1) hend]
      · simp only [hcode, hend, ne_eq, not_true_eq_false, if_false, or_self, Bool.false_eq_true]
        exact ih _ _ (by simpa using hend) hcode
          fun loc hloc => h loc (by rw [regionSlots]; exact List.mem_append_right _ hloc)
    · simp [hcode]

theorem walkClusters_ok (hf : fs.NoFaults) {t : ℕ} {l : List ℕ} : ∀ {c n : ℕ} (w : Walk κ),
    w.ended = false → w.code = 0 →
    Path fs.linkAt fat16ClusterValid c l t → fat16ClusterValid t = false → l.length < n →
    DirPure fs cb gw (l.flatMap fs.header.clusterSlots) →
    walkClusters cb n c w fs =
      some (fs.walkFold gw (l.flatMap fs.header.clusterSlots) w, fs) := by
  induction l with
  | nil =>
    intro c n w he hc hp ht hn _
    obtain ⟨m, rfl⟩ : ∃ m, n = m + 1 := ⟨n - 1, by simp at hn; omega⟩
    rw [path_nil] at hp
    subst hp
    simp only [walkClusters, ht, Bool.false_and, Bool.false_eq_true, if_false, Prog.pure_apply,
      List.flatMap_nil, Fat16.walkFold]
  | cons a l ih =>
    intro c n w he hc hp ht hn h
    obtain ⟨m, rfl⟩ : ∃ m, n = m + 1 := ⟨n - 1, by simp at hn; omega⟩
    obtain ⟨rfl, hok, hp⟩ := hp
    have h0 : walkSectors cb fs.header.perSector fs.header.spc (fs.header.clusterToLba c) w fs
        = some (fs.walkFold gw (fs.header.clusterSlots c) w, fs) :=
      walkSectors_ok hf _ _ _ he hc
        fun loc hloc => h loc (by rw [List.flatMap_cons]; exact List.mem_append_left _ hloc)
    simp only [walkClusters, hok, he, Bool.not_false, Bool.and_self, if_true, Prog.bind_apply,
      Prog.get_apply, Prog.obind_some, h0, Prog.ite_apply, Prog.pure_apply,
      fat16NextCluster_link hf, List.flatMap_cons, walkFold_append fs gw _ _ w he hc]
    by_cases hcode : (fs.walkFold gw (fs.header.clusterSlots c) w).code = 0
    · by_cases hend : (fs.walkFold gw (fs.header.clusterSlots c) w).ended = true
      · obtain ⟨k, rfl⟩ : ∃ k, m = k + 1 := ⟨m - 1, by simp at hn; omega⟩
        simp [hcode, hend, walkClusters]
      · simp only [hcode, hend, ne_eq, not_true_eq_false, if_false, or_self, Bool.false_eq_true]
        exact ih _ (by simpa using hend) hcode hp ht
          (by simp at hn; omega)
          fun loc hloc => h loc (by rw [List.flatMap_cons]; exact List.mem_append_right _ hloc)
    · simp [hcode]

/-- **The walk is a fold over the directory's slots up to the end marker.** -/
theorem fat16WalkDir_path (hf : fs.NoFaults) {d : ℕ} {l : List ℕ} (hd : fs.DirPath d l) (ctx : κ)
    (h : DirPure fs cb gw (fs.header.dirSlots d l)) :
    fat16WalkDir d cb ctx fs =
      some (((fs.walkFold gw (fs.header.dirSlots d l) ⟨0, 0, false, ctx⟩).code,
        (fs.walkFold gw (fs.header.dirSlots d l) ⟨0, 0, false, ctx⟩).ctx), fs) := by
  simp only [fat16WalkDir, Prog.bind_apply, Prog.get_apply, Prog.obind_some, Prog.ite_apply]
  rcases hd with ⟨rfl, rfl⟩ | ⟨hd, t, hp, ht⟩
  · have hw : walkSectors cb fs.header.perSector fs.header.rootDirSectors fs.header.rootDirLba
        ⟨0, 0, false, ctx⟩ fs = some (fs.walkFold gw (fs.header.dirSlots 0 []) ⟨0, 0, false, ctx⟩, fs) :=
      walkSectors_ok hf _ _ _ rfl rfl h
    rw [if_pos rfl, hw]
    simp only [Prog.obind_some, Prog.pure_apply]
  · rw [FatHeader.dirSlots, if_neg hd] at h ⊢
    rw [if_neg hd, walkClusters_ok hf _ rfl rfl hp ht (path_length_lt hp ht) h]
    simp only [Prog.obind_some, Prog.pure_apply]

theorem fat16WalkDir_ok (hm : fs.Mounted) {d : ℕ} {l : List ℕ} (hd : fs.DirChain d l) (ctx : κ)
    (h : DirPure fs cb gw (fs.header.dirSlots d l)) :
    fat16WalkDir d cb ctx fs =
      some (((fs.walkFold gw (fs.header.dirSlots d l) ⟨0, 0, false, ctx⟩).code,
        (fs.walkFold gw (fs.header.dirSlots d l) ⟨0, 0, false, ctx⟩).ctx), fs) :=
  fat16WalkDir_path hm.noFaults (hd.dirPath hm) ctx h

end LizardOs.Fat
