import LizardOs.Fat.Directory

/-!
# Files: read, write, truncate

The file half of `fat16.c`.  An inode carries the cached copy of its directory entry, the slot that entry
lives in, and the size the VFS sees.  The C code mutates the inode in place, so the routines here return it,
also on failure.  Offsets and lengths keep the widths of the source: `u32` loop counters wrap modulo `2^32`,
and the signed comparisons of `fat16_read` are made on the two's-complement value.
-/

namespace LizardOs.Fat

open LizardOs.Lib

def FAT16_MODE_DIR : ℕ := 0o40777
def FAT16_MODE_FILE : ℕ := 0o100666

/-- `struct inode` with its `struct fat16_inode_info`. -/
structure Inode where
  ent : Fat16Directory
  loc : DirLoc
  size : ℕ
  mode : ℕ
deriving DecidableEq

/-- The inode `fat16_make_inode` builds. -/
def Inode.ofEntry (ent : Fat16Directory) (loc : DirLoc) : Inode where
  ent := ent
  loc := loc
  size := ent.fileSizeBytes.toNat
  mode := if isDir ent then FAT16_MODE_DIR else FAT16_MODE_FILE

/-- `fat16_make_inode`: one allocation for the inode, one for its private part. -/
def fat16MakeInode (ent : Fat16Directory) (loc : DirLoc) : Fs (Option Inode) := do
  if ← zalloc then
    if ← zalloc then pure (some (Inode.ofEntry ent loc)) else pure none
  else pure none

/-- The inode of the root directory, as `fat16_mount_fs` builds it. -/
def rootInode : Inode :=
  Inode.ofEntry { Fat16Directory.zero with attributes := FAT16_ATTR_DIRECTORY } ⟨0, 0⟩

/-- Bytes per cluster (`u32`). -/
def FatHeader.clusterSize (h : FatHeader) : ℕ := h.bps * h.spc

/-! ### Reading -/

/-- The first loop of `fat16_read`: skip whole clusters; `none` is the early `return 0`. -/
def readSkip (clusterSize : ℕ) : ℕ → ℕ → ℕ → Fs (Option (ℕ × ℕ))
  | 0, _, _ => Prog.diverge
  | n + 1, cluster, skip =>
      if clusterSize ≤ skip then do
        let next ← fat16NextCluster cluster
        if fat16ClusterValid next then readSkip clusterSize n next (skip - clusterSize)
        else pure none
      else pure (some (cluster, skip))

/-- The loop variables of the read and write loops. -/
structure Transfer where
  skip : ℕ
  done : ℕ
  /-- A sector transfer failed. -/
  failed : Bool
  buf : Buf

/-- The sector loop of `fat16_read`: `n` sectors of the cluster left, the next one is `lba`. -/
def readSectors (sectorSize count : ℕ) : ℕ → ℕ → Transfer → Fs Transfer
  | 0, _, t => pure t
  | n + 1, lba, t =>
      if t.done < count then
        if sectorSize ≤ t.skip then
          readSectors sectorSize count n (lba + 1) { t with skip := t.skip - sectorSize }
        else do
          match ← blkDevRead lba with
          | none => pure { t with failed := true }
          | some sector =>
              let avail := sectorSize - t.skip
              let toCopy := if avail < count - t.done then avail else (count - t.done) % 2 ^ 32
              let t' : Transfer :=
                { skip := 0
                  done := (t.done + toCopy) % 2 ^ 32
                  failed := false
                  buf := splice t.buf t.done (fun j => sector (t.skip + j)) toCopy }
              readSectors sectorSize count n (lba + 1) t'
      else pure t

/-- The cluster loop of `fat16_read`. -/
def readClusters (count : ℕ) : ℕ → ℕ → Transfer → Fs Transfer
  | 0, _, _ => Prog.diverge
  | n + 1, cluster, t =>
      if fat16ClusterValid cluster && decide (t.done < count) then do
        let fs ← Prog.get
        let t ← readSectors fs.header.bps count fs.header.spc (fs.header.clusterToLba cluster) t
        if t.failed then pure t
        else do
          let next ← fat16NextCluster cluster
          readClusters count n next t
      else pure t

/-- `fat16_read`: the return value and the caller's buffer. -/
def fat16Read (ino : Inode) (buf : Buf) (count offset : ℕ) : Fs (ℤ × Buf) := do
  let fs ← Prog.get
  if asI64 ino.size ≤ asI64 offset then pure (0, buf)
  else do
    let count := if asI64 ino.size < asI64 (offset + count) then
        (ino.size + 2 ^ 64 - offset) % 2 ^ 64
      else count
    let skip := offset % 2 ^ 32
    match ← readSkip fs.header.clusterSize (skip + 1) ino.ent.cluster skip with
    | none => pure (0, buf)
    | some (cluster, skip) => do
        let t ← readClusters count (count + CLUSTER_STEPS) cluster ⟨skip, 0, false, buf⟩
        if t.failed && decide (t.done = 0) then pure (-1, t.buf)
        else pure (t.done, t.buf)

/-! ### Writing -/

/-- The last part of `chain_step`: a free cluster is taken and linked. -/
def chainStepAlloc (cluster : ℕ) : Fs ℕ := do
  match ← fat16ClusterAlloc with
  | none => pure 0
  | some next => if ← fat16FatSet cluster next then pure next else pure 0

/-- `chain_step`: the next cluster of the chain, allocated and linked if the chain ends; `0` on failure. -/
def chainStep (cluster : ℕ) : Fs ℕ := do
  let next ← fat16NextCluster cluster
  if fat16ClusterValid next then pure next else chainStepAlloc cluster

/-- The positioning loop of `fat16_write`; `0` is the early failure. -/
def writeSeek (clusterSize offset : ℕ) : ℕ → ℕ → ℕ → Fs ℕ
  | 0, _, _ => Prog.diverge
  | n + 1, pos, cluster =>
      if pos ≤ offset then do
        let next ← chainStep cluster
        if next = 0 then pure 0
        else writeSeek clusterSize offset n ((pos + clusterSize) % 2 ^ 32) next
      else pure cluster

/-- The sector loop of `fat16_write`.  A whole-sector chunk overwrites every byte of the local buffer, so
only a partial one reads the sector first. -/
def writeSectors (sectorSize count : ℕ) : ℕ → ℕ → Transfer → Fs Transfer
  | 0, _, t => pure t
  | n + 1, lba, t =>
      if t.done < count then
        if sectorSize ≤ t.skip then
          writeSectors sectorSize count n (lba + 1) { t with skip := t.skip - sectorSize }
        else do
          let avail := sectorSize - t.skip
          let chunk := if avail < count - t.done then avail else (count - t.done) % 2 ^ 32
          let old ← if t.skip ≠ 0 ∨ chunk ≠ sectorSize then blkDevRead lba
            else pure (some fun _ => 0)
          match old with
          | none => pure { t with failed := true }
          | some sector =>
              if ← blkDevWrite lba (splice sector t.skip (fun j => t.buf (t.done + j)) chunk) then
                writeSectors sectorSize count n (lba + 1)
                  { t with skip := 0, done := (t.done + chunk) % 2 ^ 32 }
              else pure { t with failed := true }
      else pure t

/-- The cluster loop of `fat16_write`; it ends early on a failed transfer or a full volume. -/
def writeClusters (count : ℕ) : ℕ → ℕ → Transfer → Fs Transfer
  | 0, _, _ => Prog.diverge
  | n + 1, cluster, t =>
      if t.done < count then do
        let fs ← Prog.get
        let t ← writeSectors fs.header.bps count fs.header.spc (fs.header.clusterToLba cluster) t
        if t.failed then pure t
        else if t.done < count then do
          let next ← chainStep cluster
          if next = 0 then pure t else writeClusters count n next t
        else pure t
      else pure t

/-- The first cluster of a file about to be written: its own, or a freshly allocated one. -/
def writeFirst (ino : Inode) : Fs (Option Inode) := do
  if ino.ent.cluster = 0 then
    match ← fat16ClusterAlloc with
    | none => pure none
    | some c => pure (some { ino with ent := { ino.ent with firstClusterLow := UInt16.ofNat c } })
  else pure (some ino)

/-- The inode at the label `out` of `fat16_write`, after `done` bytes were written at `offset`. -/
def Inode.written (now : DosStamp) (ino : Inode) (offset done : ℕ) : Inode :=
  let ino := if ino.size < offset + done then
      { ino with
        size := offset + done
        ent := { ino.ent with fileSizeBytes := UInt32.ofNat (offset + done) } }
    else ino
  if 0 < done then { ino with ent := fat16EntryTouch now ino.ent } else ino

/-- `fat16_write`: the return value and the inode it leaves. -/
def fat16Write (now : DosStamp) (ino : Inode) (buf : Buf) (count offset : ℕ) :
    Fs (ℤ × Inode) := do
  let fs ← Prog.get
  if isDir ino.ent || fs.readOnly then pure (-1, ino)
  else if count = 0 then pure (0, ino)
  else do
    match ← writeFirst ino with
    | none => pure (-1, ino)
    | some ino => do
        let clusterSize := fs.header.clusterSize
        let cluster ← writeSeek clusterSize (offset % 2 ^ 32) (2 ^ 32) (clusterSize % 2 ^ 32)
          ino.ent.cluster
        if cluster = 0 then pure (-1, ino)
        else do
          let t ← writeClusters count (count + CLUSTER_STEPS) cluster
            ⟨offset % 2 ^ 32 % clusterSize, 0, false, buf⟩
          let ino := ino.written now offset t.done
          let _ ← fat16DirWrite ino.loc ino.ent
          pure (if 0 < t.done then (t.done : ℤ) else -1, ino)

/-! ### Truncating -/

/-- `fat16_truncate`; only length 0 is supported. -/
def fat16Truncate (now : DosStamp) (ino : Inode) (length : ℕ) : Fs (ℤ × Inode) := do
  let fs ← Prog.get
  if isDir ino.ent || fs.readOnly then pure (-1, ino)
  else if length ≠ 0 then pure (-1, ino)
  else if ino.size = 0 ∧ ino.ent.cluster = 0 then pure (0, ino)
  else do
    if fat16ClusterValid ino.ent.cluster then
      let _ ← fat16ChainFree ino.ent.cluster
      pure ()
    let ino : Inode :=
      { ino with
        size := 0
        ent := fat16EntryTouch now
          { ino.ent with firstClusterLow := 0, fileSizeBytes := 0 } }
    if ← fat16DirWrite ino.loc ino.ent then pure (0, ino) else pure (-1, ino)

end LizardOs.Fat
