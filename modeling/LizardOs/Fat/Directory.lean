import LizardOs.Fat.FatTable
import LizardOs.Fat.Names

/-!
# Directories: slots, scans and walks

The second part of `fat16_helpers.c`.  Two loops run over the slots of a directory: `fat16_dir_scan` shows
every slot's first byte to its callback, end marker or not; `fat16_walk_dir` decodes the slots, counts a
running byte offset and stops at the end marker.  Both are modelled with their callbacks, which read the
volume and carry a context; a callback answers with a code, and a non-zero code stops the loop.
-/

namespace LizardOs.Fat

open LizardOs.Lib

variable {κ : Type}

/-- `fat16_dir_read`. -/
def fat16DirRead (loc : DirLoc) : Fs (Option Fat16Directory) := do
  match ← blkDevRead loc.lba with
  | none => pure none
  | some buf => pure (some (Fat16Directory.ofBytes fun j => buf (loc.off + j)))

/-- `fat16_dir_write`: read the sector, replace the slot, write the sector back. -/
def fat16DirWrite (loc : DirLoc) (ent : Fat16Directory) : Fs Bool := do
  match ← blkDevRead loc.lba with
  | none => pure false
  | some buf => blkDevWrite loc.lba (splice buf loc.off ent.toBytes FAT16_DIR_ENTRY_SIZE)

/-! ### The low-level scanner -/

/-- `fat16_slot_cb`: the slot's first byte, its location and the context. -/
abbrev SlotCb (κ : Type) := UInt8 → DirLoc → κ → Fs (ℤ × κ)

/-- The innermost loop: `n` slots of the sector left, the next one is slot `i`. -/
def scanSector (slot : SlotCb κ) (buf : Buf) (lba : ℕ) : ℕ → ℕ → κ → Fs (ℤ × κ)
  | 0, _, ctx => pure (0, ctx)
  | n + 1, i, ctx => do
      let p ← slot (buf (i * FAT16_DIR_ENTRY_SIZE)) ⟨lba, i * FAT16_DIR_ENTRY_SIZE⟩ ctx
      if p.1 ≠ 0 then pure p else scanSector slot buf lba n (i + 1) p.2

/-- The loop over consecutive sectors: `n` left, the next one is `lba`. -/
def scanSectors (slot : SlotCb κ) (perSector : ℕ) : ℕ → ℕ → κ → Fs (ℤ × κ)
  | 0, _, ctx => pure (0, ctx)
  | n + 1, lba, ctx => do
      match ← blkDevRead lba with
      | none => pure (-1, ctx)
      | some buf => do
          let p ← scanSector slot buf lba perSector 0 ctx
          if p.1 ≠ 0 then pure p else scanSectors slot perSector n (lba + 1) p.2

/-- The loop over the clusters of a chain. -/
def scanClusters (slot : SlotCb κ) : ℕ → ℕ → κ → Fs (ℤ × κ)
  | 0, _, _ => Prog.diverge
  | n + 1, cluster, ctx =>
      if fat16ClusterValid cluster then do
        let fs ← Prog.get
        let p ← scanSectors slot fs.header.perSector fs.header.spc
          (fs.header.clusterToLba cluster) ctx
        if p.1 ≠ 0 then pure p
        else do
          let next ← fat16NextCluster cluster
          scanClusters slot n next p.2
      else pure (0, ctx)

/-- `fat16_dir_scan`: every slot of the root directory (`dirFirst = 0`) or of the chain. -/
def fat16DirScan (dirFirst : ℕ) (slot : SlotCb κ) (ctx : κ) : Fs (ℤ × κ) := do
  let fs ← Prog.get
  if dirFirst = 0 then
    scanSectors slot fs.header.perSector fs.header.rootDirSectors fs.header.rootDirLba ctx
  else scanClusters slot CLUSTER_STEPS dirFirst ctx

/-- `find_slot`; the context holds what was found. -/
def findSlot (name : CStr) : SlotCb (Option (DirLoc × Fat16Directory)) := fun c0 loc ctx =>
  if c0 = FAT16_DIR_ENTRY_END then pure (-1, ctx)
  else if c0 = FAT16_DIR_ENTRY_DELETED then pure (0, ctx)
  else do
    match ← fat16DirRead loc with
    | none => pure (-1, ctx)
    | some ent =>
        if fat16EntryValid ent = false then pure (0, ctx)
        else if fat16NameCmp name ent ≠ 0 then pure (0, ctx)
        else pure (1, some (loc, ent))

/-- `fat16_dir_find`: the first entry of that name, with its slot. -/
def fat16DirFind (dirFirst : ℕ) (name : CStr) : Fs (Option (DirLoc × Fat16Directory)) := do
  let p ← fat16DirScan dirFirst (findSlot name) none
  pure (if p.1 = 1 then p.2 else none)

/-- `nonempty_slot`. -/
def nonemptySlot : SlotCb Unit := fun c0 loc ctx =>
  if c0 = FAT16_DIR_ENTRY_END then pure (0, ctx)
  else if c0 = FAT16_DIR_ENTRY_DELETED then pure (0, ctx)
  else do
    match ← fat16DirRead loc with
    | none => pure (-1, ctx)
    | some ent =>
        if fat16EntryValid ent && !fat16IsDot ent then pure (1, ctx) else pure (0, ctx)

/-- `fat16_dir_empty`: a full scan that met no child. -/
def fat16DirEmpty (firstCluster : ℕ) : Fs Bool := do
  let p ← fat16DirScan firstCluster nonemptySlot ()
  pure (decide (p.1 = 0))

/-- `free_slot`. -/
def freeSlot : SlotCb (Option DirLoc) := fun c0 loc ctx =>
  if c0 ≠ FAT16_DIR_ENTRY_END ∧ c0 ≠ FAT16_DIR_ENTRY_DELETED then pure (0, ctx)
  else pure (1, some loc)

/-- The search for the last cluster of a directory in `fat16_dir_alloc_slot`: `c` is the link of `last`. -/
def lastClusterFrom : ℕ → ℕ → ℕ → Fs ℕ
  | 0, _, _ => Prog.diverge
  | n + 1, last, c =>
      if fat16ClusterValid c then do
        let next ← fat16NextCluster c
        lastClusterFrom n c next
      else pure last

/-- Zero `n` sectors from `lba` on. -/
def zeroSectors : ℕ → ℕ → Fs Bool
  | 0, _ => pure true
  | n + 1, lba => do
      if ← blkDevWrite lba (fun _ => 0) then zeroSectors n (lba + 1) else pure false

/-- The end of `fat16_dir_alloc_slot`: append a zeroed cluster to the chain that ends in `last`. -/
def appendCluster (last : ℕ) : Fs (Option DirLoc) := do
  match ← fat16ClusterAlloc with
  | none => pure none
  | some nc =>
      if ← fat16FatSet last nc then do
        let fs ← Prog.get
        let base := fs.header.clusterToLba nc
        if ← zeroSectors fs.header.spc base then pure (some ⟨base, 0⟩) else pure none
      else pure none

/-- `fat16_dir_alloc_slot`: the first deleted or end slot, or the first slot of a zeroed cluster appended to
a subdirectory. -/
def fat16DirAllocSlot (dirFirst : ℕ) : Fs (Option DirLoc) := do
  let p ← fat16DirScan dirFirst freeSlot none
  if p.1 = 1 then pure p.2
  else if dirFirst = 0 then pure none
  else do
    let c ← fat16NextCluster dirFirst
    let last ← lastClusterFrom CLUSTER_STEPS dirFirst c
    appendCluster last

/-! ### Directory iteration -/

/-- `fat16_dir_cb`: the entry, its running byte offset, its location and the context. -/
abbrev DirCb (κ : Type) := Fat16Directory → ℕ → DirLoc → κ → Fs (ℤ × κ)

/-- The loop variables of a walk: the callback's last code, the running offset (`u32`), whether the end
marker was met, and the callback's context. -/
structure Walk (κ : Type) where
  code : ℤ
  offset : ℕ
  ended : Bool
  ctx : κ

/-- `walk_sector`, after its sector read: `n` slots left, the next one is slot `i`. -/
def walkSector (cb : DirCb κ) (buf : Buf) (lba : ℕ) : ℕ → ℕ → Walk κ → Fs (Walk κ)
  | 0, _, w => pure w
  | n + 1, i, w =>
      let e := Fat16Directory.ofBytes fun j => buf (i * FAT16_DIR_ENTRY_SIZE + j)
      if e.first = FAT16_DIR_ENTRY_END then pure { w with ended := true }
      else do
        let p ← cb e w.offset ⟨lba, i * FAT16_DIR_ENTRY_SIZE⟩ w.ctx
        let offset := (w.offset + FAT16_DIR_ENTRY_SIZE) % 2 ^ 32
        if p.1 ≠ 0 then pure { w with code := p.1, ctx := p.2 }
        else walkSector cb buf lba n (i + 1) { w with offset := offset, ctx := p.2 }

/-- The loop of `fat16_walk_dir` over consecutive sectors. -/
def walkSectors (cb : DirCb κ) (perSector : ℕ) : ℕ → ℕ → Walk κ → Fs (Walk κ)
  | 0, _, w => pure w
  | n + 1, lba, w =>
      if w.ended then pure w
      else do
        match ← blkDevRead lba with
        | none => pure { w with code := -1 }
        | some buf => do
            let w ← walkSector cb buf lba perSector 0 w
            if w.code ≠ 0 then pure w else walkSectors cb perSector n (lba + 1) w

/-- The loop of `fat16_walk_dir` over the clusters of a chain. -/
def walkClusters (cb : DirCb κ) : ℕ → ℕ → Walk κ → Fs (Walk κ)
  | 0, _, _ => Prog.diverge
  | n + 1, cluster, w =>
      if fat16ClusterValid cluster && !w.ended then do
        let fs ← Prog.get
        let w ← walkSectors cb fs.header.perSector fs.header.spc (fs.header.clusterToLba cluster) w
        if w.code ≠ 0 then pure w
        else do
          let next ← fat16NextCluster cluster
          walkClusters cb n next w
      else pure w

/-- `fat16_walk_dir`: the callback's stop code, `-1` on an I/O error, `0` when the directory ended first. -/
def fat16WalkDir (firstCluster : ℕ) (cb : DirCb κ) (ctx : κ) : Fs (ℤ × κ) := do
  let fs ← Prog.get
  let w : Walk κ := ⟨0, 0, false, ctx⟩
  let w ← if firstCluster = 0 then
      walkSectors cb fs.header.perSector fs.header.rootDirSectors fs.header.rootDirLba w
    else walkClusters cb CLUSTER_STEPS firstCluster w
  pure (w.code, w.ctx)

end LizardOs.Fat
