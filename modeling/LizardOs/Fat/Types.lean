import LizardOs.Lib.Bytes
import LizardOs.Lib.Prog

/-!
# The mounted FAT16 volume

The data model of `fat16_types.h` and of the part of `blk_dev.h` a mounted volume uses: the boot-sector
header with the region addresses `fat16_mount` derives from it, the 32-byte directory entry with its packed
on-disk layout, and the runtime state of the volume (the device's sectors and the first FAT held in RAM).

Sector transfers and allocations may fail.  Which ones fail is part of the state: `ioFaults` and
`allocFaults` hold the outcomes of the transfers and allocations to come, first one first, and an exhausted
list means that every later one succeeds.  A run without I/O or memory failure is one with both lists empty.
-/

namespace LizardOs.Fat

open LizardOs.Lib

def FAT16_SECTOR_SIZE : ℕ := 512
def FAT16_FAT_ENTRY_SIZE : ℕ := 2
def FAT16_DIR_ENTRY_SIZE : ℕ := 32

/-- Directory entry `name[0]` sentinels. -/
def FAT16_DIR_ENTRY_DELETED : UInt8 := 0xE5
def FAT16_DIR_ENTRY_END : UInt8 := 0x00

def FAT16_ATTR_VOLUME_ID : UInt8 := 0x08
def FAT16_ATTR_DIRECTORY : UInt8 := 0x10
def FAT16_ATTR_ARCHIVE : UInt8 := 0x20
def FAT16_ATTR_LFN : UInt8 := 0x0F

def FAT16_FREE_CLUSTER : ℕ := 0x0000
def FAT16_CLUSTER_MIN : ℕ := 0x0002
def FAT16_CLUSTER_MAX : ℕ := 0xFFEF
def FAT16_BAD_CLUSTER : ℕ := 0xFFF7
def FAT16_EOC : ℕ := 0xFFF8

/-- `fat16_cluster_valid`: the cluster numbers a chain may run through. -/
def fat16ClusterValid (cluster : ℕ) : Bool :=
  decide (FAT16_CLUSTER_MIN ≤ cluster) && decide (cluster ≤ FAT16_CLUSTER_MAX)

/-! ### The boot-sector header and the derived geometry -/

/-- `struct fat_header`: the fields `fat16_mount` and the volume code read. -/
structure FatHeader where
  bytesPerSector : UInt16
  sectorsPerCluster : UInt8
  reservedSectorCount : UInt16
  numFats : UInt8
  rootEntryCount : UInt16
  totalSectors16 : UInt16
  fatSize16 : UInt16
  totalSectors32 : UInt32
deriving DecidableEq

namespace FatHeader

variable (h : FatHeader)

/-- Bytes per sector, as the code's `u32` expressions use it. -/
def bps : ℕ := h.bytesPerSector.toNat

/-- Sectors per cluster. -/
def spc : ℕ := h.sectorsPerCluster.toNat

def fatStartLba : ℕ := h.reservedSectorCount.toNat

def rootDirLba : ℕ := h.fatStartLba + h.numFats.toNat * h.fatSize16.toNat

def rootDirSectors : ℕ :=
  (h.rootEntryCount.toNat * FAT16_DIR_ENTRY_SIZE + h.bps - 1) / h.bps

def dataRegionLba : ℕ := h.rootDirLba + h.rootDirSectors

/-- `total_sectors_16` when it is set, else `total_sectors_32`. -/
def totalSectors : ℕ :=
  if h.totalSectors16 ≠ 0 then h.totalSectors16.toNat else h.totalSectors32.toNat

/-- `total_clusters`; the `u32` subtraction wraps on a volume smaller than its own metadata. -/
def totalClusters : ℕ :=
  (h.totalSectors + 2 ^ 32 - h.dataRegionLba) % 2 ^ 32 / h.spc

def fatBytes : ℕ := h.fatSize16.toNat * h.bps

/-- Directory slots in one sector. -/
def perSector : ℕ := h.bps / FAT16_DIR_ENTRY_SIZE

/-- The last cluster number `fat16_cluster_alloc` considers (`u32` arithmetic). -/
def lastCluster : ℕ := min ((h.totalClusters + 1) % 2 ^ 32) FAT16_CLUSTER_MAX

/-- `fat16_cluster_to_lba`. -/
def clusterToLba (cluster : ℕ) : ℕ :=
  if cluster < FAT16_CLUSTER_MIN then 0
  else (cluster - FAT16_CLUSTER_MIN) * h.spc + h.dataRegionLba

end FatHeader

/-! ### Directory entries -/

/-- `struct fat16_directory`, the 32-byte on-disk directory entry. -/
structure Fat16Directory where
  name : Vector UInt8 8
  extension : Vector UInt8 3
  attributes : UInt8
  reserved1 : UInt8
  creationTimeTenths : UInt8
  creationTime : UInt16
  creationDate : UInt16
  lastAccessDate : UInt16
  reserved2 : UInt16
  writeTime : UInt16
  writeDate : UInt16
  firstClusterLow : UInt16
  fileSizeBytes : UInt32
deriving DecidableEq

namespace Fat16Directory

/-- The entry packed in the 32 bytes from the start of a buffer. -/
def ofBytes (b : Buf) : Fat16Directory where
  name := #v[b 0, b 1, b 2, b 3, b 4, b 5, b 6, b 7]
  extension := #v[b 8, b 9, b 10]
  attributes := b 11
  reserved1 := b 12
  creationTimeTenths := b 13
  creationTime := le16 b 14
  creationDate := le16 b 16
  lastAccessDate := le16 b 18
  reserved2 := le16 b 20
  writeTime := le16 b 22
  writeDate := le16 b 24
  firstClusterLow := le16 b 26
  fileSizeBytes := le32 b 28

/-- The packed layout of an entry. -/
def toBytes (e : Fat16Directory) : Buf := fun j =>
  match j with
  | 0 => e.name[0] | 1 => e.name[1] | 2 => e.name[2] | 3 => e.name[3]
  | 4 => e.name[4] | 5 => e.name[5] | 6 => e.name[6] | 7 => e.name[7]
  | 8 => e.extension[0] | 9 => e.extension[1] | 10 => e.extension[2]
  | 11 => e.attributes | 12 => e.reserved1 | 13 => e.creationTimeTenths
  | 14 => leByte e.creationTime.toNat 0 | 15 => leByte e.creationTime.toNat 1
  | 16 => leByte e.creationDate.toNat 0 | 17 => leByte e.creationDate.toNat 1
  | 18 => leByte e.lastAccessDate.toNat 0 | 19 => leByte e.lastAccessDate.toNat 1
  | 20 => leByte e.reserved2.toNat 0 | 21 => leByte e.reserved2.toNat 1
  | 22 => leByte e.writeTime.toNat 0 | 23 => leByte e.writeTime.toNat 1
  | 24 => leByte e.writeDate.toNat 0 | 25 => leByte e.writeDate.toNat 1
  | 26 => leByte e.firstClusterLow.toNat 0 | 27 => leByte e.firstClusterLow.toNat 1
  | 28 => leByte e.fileSizeBytes.toNat 0 | 29 => leByte e.fileSizeBytes.toNat 1
  | 30 => leByte e.fileSizeBytes.toNat 2 | 31 => leByte e.fileSizeBytes.toNat 3
  | _ => 0

/-- The first cluster as a number. -/
def cluster (e : Fat16Directory) : ℕ := e.firstClusterLow.toNat

/-- The all-zero entry (`memset(ent, 0, sizeof(*ent))`). -/
def zero : Fat16Directory where
  name := #v[0, 0, 0, 0, 0, 0, 0, 0]
  extension := #v[0, 0, 0]
  attributes := 0
  reserved1 := 0
  creationTimeTenths := 0
  creationTime := 0
  creationDate := 0
  lastAccessDate := 0
  reserved2 := 0
  writeTime := 0
  writeDate := 0
  firstClusterLow := 0
  fileSizeBytes := 0

/-- The entry depends on its 32 bytes only. -/
theorem ofBytes_congr {b b' : Buf} (h : ∀ j < 32, b j = b' j) : ofBytes b = ofBytes b' := by
  simp only [ofBytes, le16, le32, h 0 (by omega), h 1 (by omega), h 2 (by omega), h 3 (by omega),
    h 4 (by omega), h 5 (by omega), h 6 (by omega), h 7 (by omega), h 8 (by omega), h 9 (by omega),
    h 10 (by omega), h 11 (by omega), h 12 (by omega), h 13 (by omega), h 14 (by omega),
    h 15 (by omega), h 16 (by omega), h 17 (by omega), h 18 (by omega), h 19 (by omega),
    h 20 (by omega), h 21 (by omega), h 22 (by omega), h 23 (by omega), h 24 (by omega),
    h 25 (by omega), h 26 (by omega), h 27 (by omega), h 28 (by omega), h 29 (by omega),
    h 30 (by omega), h 31 (by omega)]

theorem le16_toBytes {b : Buf} {i : ℕ} (v : UInt16) (h0 : b i = leByte v.toNat 0)
    (h1 : b (i + 1) = leByte v.toNat 1) : le16 b i = v :=
  UInt16.toNat.inj (le16_of_bytes v.toNat_lt h0 h1)

theorem le32_toBytes {b : Buf} {i : ℕ} (v : UInt32) (h0 : b i = leByte v.toNat 0)
    (h1 : b (i + 1) = leByte v.toNat 1) (h2 : b (i + 2) = leByte v.toNat 2)
    (h3 : b (i + 3) = leByte v.toNat 3) : le32 b i = v :=
  UInt32.toNat.inj (le32_of_bytes v.toNat_lt h0 h1 h2 h3)

/-- **The packed layout loses nothing.** -/
theorem ofBytes_toBytes (e : Fat16Directory) : ofBytes e.toBytes = e := by
  obtain ⟨name, ext, attr, r1, ctt, ct, cd, lad, r2, wt, wd, fc, size⟩ := e
  simp only [ofBytes, mk.injEq]
  refine ⟨?_, ?_, rfl, rfl, rfl, le16_toBytes _ rfl rfl, le16_toBytes _ rfl rfl,
    le16_toBytes _ rfl rfl, le16_toBytes _ rfl rfl, le16_toBytes _ rfl rfl, le16_toBytes _ rfl rfl,
    le16_toBytes _ rfl rfl, le32_toBytes _ rfl rfl rfl rfl⟩
  · ext i hi
    have hcases : i = 0 ∨ i = 1 ∨ i = 2 ∨ i = 3 ∨ i = 4 ∨ i = 5 ∨ i = 6 ∨ i = 7 := by omega
    rcases hcases with rfl | rfl | rfl | rfl | rfl | rfl | rfl | rfl <;> rfl
  · ext i hi
    have hcases : i = 0 ∨ i = 1 ∨ i = 2 := by omega
    rcases hcases with rfl | rfl | rfl <;> rfl

end Fat16Directory

/-! ### The runtime state -/

/-- The two directions of a sector transfer. -/
inductive IoOp where
  | read
  | write
deriving DecidableEq

/-- `struct fat16_dir_loc`: the sector and the byte offset of one directory slot. -/
structure DirLoc where
  lba : ℕ
  off : ℕ
deriving DecidableEq

/-- `struct fat16` with the device behind it. -/
structure Fat16 where
  header : FatHeader
  /-- The device's sectors. -/
  disk : ℕ → Buf
  /-- The first FAT in RAM; `none` if the allocation failed at mount. -/
  fatCache : Option Buf
  readOnly : Bool
  /-- Which of the coming sector transfers fail. -/
  ioFaults : List (IoOp → ℕ → Bool)
  /-- Which of the coming allocations fail. -/
  allocFaults : List Bool

/-- The routines of the volume code. -/
abbrev Fs := Prog Fat16

namespace Fat16

/-- Replace the contents of one sector. -/
def setSector (fs : Fat16) (lba : ℕ) (buf : Buf) : Fat16 :=
  { fs with disk := Function.update fs.disk lba buf }

/-- The entry in a directory slot. -/
def entryAt (fs : Fat16) (loc : DirLoc) : Fat16Directory :=
  Fat16Directory.ofBytes fun j => fs.disk loc.lba (loc.off + j)

/-- No sector transfer and no allocation fails from here on. -/
structure NoFaults (fs : Fat16) : Prop where
  io : fs.ioFaults = []
  alloc : fs.allocFaults = []

end Fat16

/-- `blk_dev_read(fs->dev, sector, buf, 1)`; `none` is the error code. -/
def blkDevRead (sector : ℕ) : Fs (Option Buf) := fun fs =>
  match fs.ioFaults with
  | [] => some (some (fs.disk sector), fs)
  | fault :: rest =>
      some (if fault .read sector then none else some (fs.disk sector),
        { fs with ioFaults := rest })

/-- `blk_dev_write(fs->dev, sector, buf, 1)`; a failed write leaves the sector unchanged. -/
def blkDevWrite (sector : ℕ) (buf : Buf) : Fs Bool := fun fs =>
  match fs.ioFaults with
  | [] => some (true, fs.setSector sector buf)
  | fault :: rest =>
      if fault .write sector then some (false, { fs with ioFaults := rest })
      else some (true, { fs.setSector sector buf with ioFaults := rest })

/-- One `zalloc`: whether it succeeds. -/
def zalloc : Fs Bool := fun fs =>
  match fs.allocFaults with
  | [] => some (true, fs)
  | fault :: rest => some (!fault, { fs with allocFaults := rest })

theorem blkDevRead_io {fs : Fat16} (h : fs.ioFaults = []) (sector : ℕ) :
    blkDevRead sector fs = some (some (fs.disk sector), fs) := by
  simp only [blkDevRead, h]

theorem blkDevWrite_io {fs : Fat16} (h : fs.ioFaults = []) (sector : ℕ) (buf : Buf) :
    blkDevWrite sector buf fs = some (true, fs.setSector sector buf) := by
  simp only [blkDevWrite, h]

theorem blkDevRead_ok {fs : Fat16} (h : fs.NoFaults) (sector : ℕ) :
    blkDevRead sector fs = some (some (fs.disk sector), fs) := blkDevRead_io h.io sector

theorem blkDevWrite_ok {fs : Fat16} (h : fs.NoFaults) (sector : ℕ) (buf : Buf) :
    blkDevWrite sector buf fs = some (true, fs.setSector sector buf) := blkDevWrite_io h.io sector buf

theorem zalloc_ok {fs : Fat16} (h : fs.NoFaults) : zalloc fs = some (true, fs) := by
  simp only [zalloc, h.alloc]

namespace Fat16

@[simp] theorem setSector_header (fs : Fat16) (lba : ℕ) (buf : Buf) :
    (fs.setSector lba buf).header = fs.header := rfl

@[simp] theorem setSector_fatCache (fs : Fat16) (lba : ℕ) (buf : Buf) :
    (fs.setSector lba buf).fatCache = fs.fatCache := rfl

@[simp] theorem setSector_readOnly (fs : Fat16) (lba : ℕ) (buf : Buf) :
    (fs.setSector lba buf).readOnly = fs.readOnly := rfl

theorem setSector_noFaults {fs : Fat16} (h : fs.NoFaults) (lba : ℕ) (buf : Buf) :
    (fs.setSector lba buf).NoFaults := ⟨h.io, h.alloc⟩

@[simp] theorem setSector_disk_self (fs : Fat16) (lba : ℕ) (buf : Buf) :
    (fs.setSector lba buf).disk lba = buf := by
  simp [setSector]

theorem setSector_disk_ne {fs : Fat16} {lba lba' : ℕ} (h : lba' ≠ lba) (buf : Buf) :
    (fs.setSector lba buf).disk lba' = fs.disk lba' := by
  simp [setSector, h]

end Fat16

end LizardOs.Fat
