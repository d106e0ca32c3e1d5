import LizardOs.Block.Cache

/-!
# Partitions

`mbr_scan` registers a device for each entry of the partition table that fits on its disk.  A request to such a
device goes through the sector cache to `blk_dev_part_read` or `blk_dev_part_write`, which add the start of the
partition and hand the request to the ATA driver of the disk; the driver sends one command for each sector, with
the 28 low bits of its number.

The bounds of a partition are checked when it is registered and not looked at again, so a request stays inside the
partition exactly when its own range does and its sector numbers fit the driver.
-/

namespace LizardOs.Block

open LizardOs.Lib

/-! ### The partition table -/

def MBR_PARTITION_COUNT : ℕ := 4
def MBR_PARTITION_ENTRY_SIZE : ℕ := 16
def MBR_PARTITION_TABLE_OFFSET : ℕ := 446
def MBR_SIGNATURE_OFFSET : ℕ := 510
def MBR_SIGNATURE : ℕ := 0xAA55
def MBRYPE_EMPTY : ℕ := 0x00
def MBRYPE_GPT_PROTECTIVE : ℕ := 0xEE

/-- The fields of `struct mbr_partition_entry` that are read. -/
structure MbrPartitionEntry where
  type : ℕ
  lbaFirst : ℕ
  sectorCount : ℕ

/-- `mbr.partitions[i]`. -/
def mbrPartition (mbr : Buf) (i : ℕ) : MbrPartitionEntry :=
  let off := MBR_PARTITION_TABLE_OFFSET + i * MBR_PARTITION_ENTRY_SIZE
  ⟨(mbr (off + 4)).toNat, (le32 mbr (off + 8)).toNat, (le32 mbr (off + 12)).toNat⟩

/-- `mbr_is_valid`. -/
def mbrIsValid (mbr : Buf) : Bool := decide ((le16 mbr MBR_SIGNATURE_OFFSET).toNat = MBR_SIGNATURE)

/-- `mbr_partition_is_used`. -/
def MbrPartitionEntry.isUsed (p : MbrPartitionEntry) : Bool :=
  decide (p.type ≠ MBRYPE_EMPTY) && decide (p.sectorCount ≠ 0)

/-- `struct partition_private`, and the sector size that the device takes from its disk. -/
structure Partition where
  startLba : ℕ
  secCount : ℕ
  sectorSize : ℕ

/-- The loop of `mbr_scan` over the entries that are left: the return code and the devices registered. -/
def mbrScanFrom (mbr : Buf) (totalSectors sectorSize : ℕ) : List ℕ → List Partition → ℤ × List Partition
  | [], registered => (registered.length, registered)
  | i :: is, registered =>
      let p := mbrPartition mbr i
      if p.isUsed = false then mbrScanFrom mbr totalSectors sectorSize is registered
      else if p.type = MBRYPE_GPT_PROTECTIVE then (0, registered)
      else if p.sectorCount = 0 then mbrScanFrom mbr totalSectors sectorSize is registered
      else if totalSectors < (p.lbaFirst + p.sectorCount) % 2 ^ 64 then
        mbrScanFrom mbr totalSectors sectorSize is registered
      else
        mbrScanFrom mbr totalSectors sectorSize is (registered ++ [⟨p.lbaFirst, p.sectorCount, sectorSize⟩])

/-- `mbr_scan` of a disk; there is no image when its first sector cannot be read. -/
def mbrScan (mbr : Option Buf) (totalSectors sectorSize : ℕ) : ℤ × List Partition :=
  match mbr with
  | none => (-1, [])
  | some mbr =>
      if mbrIsValid mbr = false then (0, [])
      else mbrScanFrom mbr totalSectors sectorSize (List.range MBR_PARTITION_COUNT) []

/-! ### Transfers -/

/-- Which commands the disk carries out. -/
structure Disk where
  accepts : ℕ → Bool

/-- The sector that `ata_setup_lba` selects. -/
def lba28 (s : ℕ) : ℕ := s % 2 ^ 28

/-- The loop of `block_read` and `block_write`: the return code and the sectors transferred. -/
def ataLoop (disk : Disk) : List ℕ → ℤ × List ℕ
  | [] => (0, [])
  | s :: rest =>
      if disk.accepts (lba28 s) = true then ((ataLoop disk rest).1, lba28 s :: (ataLoop disk rest).2) else (-1, [])

/-- `for (u64 s = sector; s < sector + count; s++)`; the end is a 64-bit sum. -/
def ataTransfer (disk : Disk) (sector count : ℕ) : ℤ × List ℕ :=
  ataLoop disk (List.range' sector ((sector + count) % 2 ^ 64 - sector))

namespace Partition

/-- What the cache sees of the device. -/
def blockDev (part : Partition) : BlockDev := ⟨part.sectorSize, true, true⟩

/-- `blk_dev_part_read` and `blk_dev_part_write`. -/
def transfer (part : Partition) (disk : Disk) (sector count : ℕ) : ℤ × List ℕ :=
  ataTransfer disk ((sector + part.startLba) % 2 ^ 64) count

end Partition

/-- A call to the block layer as its caller and the disk see it: the return code and the sectors transferred. -/
structure Outcome where
  rc : ℤ
  touched : List ℕ

variable {δ : Type} [DecidableEq δ]

/-- `blk_dev_read` of a partition `d`; a line of the cache spares the transfer. -/
def Partition.blkDevRead (part : Partition) (info : δ → BlockDev) (b : BlockLayer δ) (d : δ) (disk : Disk)
    (sector count : ℕ) (buffer scrap : Buf) : Outcome where
  rc := (b.blkDevRead info (some d) sector count buffer ⟨(part.transfer disk sector count).1, scrap⟩).1.1
  touched :=
    if bcacheEligible (info d) count && (b.bcacheFind d sector).isSome then []
    else (part.transfer disk sector count).2

/-- `blk_dev_write` of a partition `d`. -/
def Partition.blkDevWrite (part : Partition) (info : δ → BlockDev) (b : BlockLayer δ) (d : δ) (disk : Disk)
    (sector count : ℕ) (buffer scrap : Buf) : Outcome where
  rc := (b.blkDevWrite info (some d) sector buffer count ⟨(part.transfer disk sector count).1, scrap⟩).1
  touched := (part.transfer disk sector count).2

/-! ### Confinement -/

/-- A request touches only sectors of the partition, and one that leaves the partition is refused. -/
structure Partition.Confines (part : Partition) (sector count : ℕ) (o : Outcome) : Prop where
  inside : ∀ s ∈ o.touched, part.startLba ≤ s ∧ s < part.startLba + part.secCount
  refused : ¬sector + count ≤ part.secCount → o.rc ≠ 0 ∧ o.touched = []

/-- Whatever the cache holds and the disk answers, the request is confined. -/
def Partition.Keeps (part : Partition) (sector count : ℕ) : Prop :=
  ∀ (info : ℕ → BlockDev) (b : BlockLayer ℕ) (d : ℕ) (disk : Disk) (buffer scrap : Buf), info d = part.blockDev →
    part.Confines sector count (part.blkDevRead info b d disk sector count buffer scrap) ∧
    part.Confines sector count (part.blkDevWrite info b d disk sector count buffer scrap)

/-- The loop of `mbr_scan` registers entries that fit on the disk. -/
theorem mbrScanFrom_fits {mbr : Buf} {total size : ℕ} (is : List ℕ) (registered : List Partition)
    (hreg : ∀ q ∈ registered, q.startLba + q.secCount ≤ total ∧ q.startLba < 2 ^ 32 ∧ q.secCount < 2 ^ 32) :
    ∀ q ∈ (mbrScanFrom mbr total size is registered).2,
      q.startLba + q.secCount ≤ total ∧ q.startLba < 2 ^ 32 ∧ q.secCount < 2 ^ 32 := by
  induction is generalizing registered with
  | nil => exact hreg
  | cons i is ih =>
    rw [mbrScanFrom]
    split
    · exact ih registered hreg
    · split
      · exact hreg
      · split
        · exact ih registered hreg
        · split
          · exact ih registered hreg
          · rename_i hfits
            apply ih
            intro q hq
            rcases List.mem_append.mp hq with hq | hq
            · exact hreg q hq
            · rw [List.mem_singleton.mp hq]
              have hstart : (mbrPartition mbr i).lbaFirst < 2 ^ 32 := UInt32.toNat_lt _
              have hcount : (mbrPartition mbr i).sectorCount < 2 ^ 32 := UInt32.toNat_lt _
              rw [Nat.mod_eq_of_lt (by omega)] at hfits
              exact ⟨Nat.le_of_not_lt hfits, hstart, hcount⟩

theorem mbrScan_fits {mbr : Option Buf} {total size : ℕ} {part : Partition} (hp : part ∈ (mbrScan mbr total size).2) :
    part.startLba + part.secCount ≤ total ∧ part.startLba < 2 ^ 32 ∧ part.secCount < 2 ^ 32 := by
  cases mbr with
  | none => cases hp
  | some mbr =>
    rw [mbrScan] at hp
    split at hp
    · cases hp
    · exact mbrScanFrom_fits _ [] (by simp) part hp

theorem ataLoop_touched {disk : Disk} {l : List ℕ} {t : ℕ} (ht : t ∈ (ataLoop disk l).2) : ∃ s ∈ l, t = lba28 s := by
  induction l with
  | nil => cases ht
  | cons s l ih =>
    rw [ataLoop] at ht
    split at ht
    · rcases List.mem_cons.mp ht with rfl | ht
      · exact ⟨s, List.mem_cons_self, rfl⟩
      · obtain ⟨u, hu, htu⟩ := ih ht
        exact ⟨u, List.mem_cons_of_mem _ hu, htu⟩
    · cases ht

/-- A disk that carries out every command transfers every sector. -/
theorem ataLoop_all (l : List ℕ) : ataLoop ⟨fun _ => true⟩ l = (0, l.map lba28) := by
  induction l with
  | nil => rfl
  | cons s l ih =>
    rw [ataLoop, if_pos rfl, ih]
    rfl

theorem lba28_of_lt {s : ℕ} (h : s < 2 ^ 28) : lba28 s = s := Nat.mod_eq_of_lt h

/-- A disk that carries out the commands for the sectors below a bound. -/
theorem ataLoop_below (bound n s : ℕ) (hrange : s + n ≤ 2 ^ 28) :
    ataLoop ⟨fun t => decide (t < bound)⟩ (List.range' s n) =
      (if s + n ≤ bound ∨ n = 0 then 0 else -1, List.range' s (min n (bound - s))) := by
  induction n generalizing s with
  | zero =>
    rw [if_pos (.inr rfl), Nat.zero_min]
    rfl
  | succ n ih =>
    rw [List.range'_succ, ataLoop, lba28_of_lt (by omega)]
    by_cases hs : s < bound
    · have hmin : min (n + 1) (bound - s) = min n (bound - (s + 1)) + 1 := by omega
      have hcode : (s + 1 + n ≤ bound ∨ n = 0) ↔ (s + (n + 1) ≤ bound ∨ n + 1 = 0) := by omega
      rw [if_pos (decide_eq_true hs), ih (s + 1) (by omega), hmin, List.range'_succ]
      simp only [hcode]
    · have hmin : min (n + 1) (bound - s) = 0 := by omega
      rw [if_neg (by rw [decide_eq_true_eq]; exact hs), if_neg (by omega), hmin]
      rfl

theorem ataTransfer_below (bound : ℕ) {sector count : ℕ} (hrange : sector + count ≤ 2 ^ 28) :
    ataTransfer ⟨fun t => decide (t < bound)⟩ sector count =
      (if sector + count ≤ bound ∨ count = 0 then 0 else -1, List.range' sector (min count (bound - sector))) := by
  rw [ataTransfer, Nat.mod_eq_of_lt (by omega), Nat.add_sub_cancel_left, ataLoop_below bound count sector hrange]

variable {part : Partition} {sector count : ℕ}

/-- A request inside a partition goes to the sectors behind its start. -/
theorem Partition.transfer_eq (disk : Disk) (hstart : part.startLba < 2 ^ 32) (hsec : part.secCount < 2 ^ 32)
    (hin : sector + count ≤ part.secCount) :
    part.transfer disk sector count = ataLoop disk (List.range' (part.startLba + sector) count) := by
  rw [Partition.transfer, ataTransfer, Nat.mod_eq_of_lt (by omega : sector + part.startLba < 2 ^ 64),
    Nat.mod_eq_of_lt (by omega : sector + part.startLba + count < 2 ^ 64), Nat.add_comm sector]
  congr 2
  omega

/-- A request whose range is inside the partition is confined as far as the driver can tell its sectors apart. -/
theorem Partition.keeps_of_inside (hstart : part.startLba < 2 ^ 32) (hsec : part.secCount < 2 ^ 32)
    (hin : sector + count ≤ part.secCount) (hlba : ∀ i < count, part.startLba ≤ lba28 (part.startLba + sector + i)) :
    part.Keeps sector count := by
  intro info b d disk buffer scrap _
  have htouched : ∀ t ∈ (part.transfer disk sector count).2,
      part.startLba ≤ t ∧ t < part.startLba + part.secCount := by
    intro t ht
    rw [part.transfer_eq disk hstart hsec hin] at ht
    obtain ⟨s, hs, rfl⟩ := ataLoop_touched ht
    obtain ⟨i, hi, rfl⟩ := List.mem_range'.mp hs
    rw [Nat.one_mul]
    have hle : lba28 (part.startLba + sector + i) ≤ part.startLba + sector + i := Nat.mod_le _ _
    exact ⟨hlba i hi, by omega⟩
  refine ⟨⟨fun t ht => ?_, fun hout => absurd hin hout⟩, ⟨htouched, fun hout => absurd hin hout⟩⟩
  rw [Partition.blkDevRead] at ht
  simp only [] at ht
  split at ht
  · cases ht
  · exact htouched t ht

/-- A request that is confined whatever the disk answers has its range inside the partition. -/
theorem Partition.inside_of_keeps (hstart : part.startLba < 2 ^ 32) (hsec : part.secCount < 2 ^ 32)
    (hk : part.Keeps sector count) :
    sector + count ≤ part.secCount ∧ ∀ i < count, part.startLba ≤ lba28 (part.startLba + sector + i) := by
  obtain ⟨-, hwrite⟩ := hk (fun _ => part.blockDev) (BlockLayer.boot fun _ _ _ => 0) 0 ⟨fun _ => true⟩ (fun _ => 0)
    (fun _ => 0) rfl
  have hrc : (part.transfer ⟨fun _ => true⟩ sector count).1 = 0 := by
    rw [Partition.transfer, ataTransfer, ataLoop_all]
  have hin : sector + count ≤ part.secCount := by
    by_contra hout
    apply (hwrite.refused hout).1
    rw [Partition.blkDevWrite]
    simp only [BlockLayer.blkDevWrite, hrc]
    split
    · rename_i hno
      cases hno
    · rw [if_neg (by simp)]
      split
      · rfl
      · rfl
  refine ⟨hin, fun i hi => ?_⟩
  apply (hwrite.inside (lba28 (part.startLba + sector + i)) ?_).1
  rw [Partition.blkDevWrite, part.transfer_eq _ hstart hsec hin, ataLoop_all]
  refine List.mem_map_of_mem (List.mem_range'.mpr ⟨i, hi, ?_⟩)
  rw [Nat.one_mul]

/-- **A registered partition fits on its disk, and a request to it is confined exactly when** its range is inside the
partition and none of its sectors is taken for one in front of the partition. -/
theorem partition_confined_iff {mbr : Option Buf} {total size : ℕ} {part : Partition}
    (hp : part ∈ (mbrScan mbr total size).2) (sector count : ℕ) :
    (part.startLba + part.secCount ≤ total ∧ part.Keeps sector count) ↔
      sector + count ≤ part.secCount ∧ ∀ i < count, part.startLba ≤ lba28 (part.startLba + sector + i) := by
  obtain ⟨hfits, hstart, hsec⟩ := mbrScan_fits hp
  constructor
  · intro ⟨_, hk⟩
    exact part.inside_of_keeps hstart hsec hk
  · intro ⟨hin, hlba⟩
    exact ⟨hfits, part.keeps_of_inside hstart hsec hin hlba⟩

/-- A table with one FAT16 partition, the sectors 4 to 7. -/
def smallMbr : Buf := fun j =>
  if j = 450 then 0x06 else if j = 454 then 4 else if j = 458 then 4 else if j = 510 then 0x55
  else if j = 511 then 0xAA else 0

def smallPartition : Partition := ⟨4, 4, 512⟩

theorem smallPartition_registered : smallPartition ∈ (mbrScan (some smallMbr) 16 512).2 := by
  have hscan : (mbrScan (some smallMbr) 16 512).2 = [smallPartition] := by rfl
  rw [hscan]
  exact List.mem_singleton_self _

/-- The last two sectors of the partition. -/
theorem partition_confined_iff_smallPartition :
    smallPartition.startLba + smallPartition.secCount ≤ 16 ∧ smallPartition.Keeps 2 2 :=
  (partition_confined_iff smallPartition_registered 2 2).mpr ⟨by decide, by decide⟩

/-- The sector behind the partition is written through it. -/
theorem partition_not_confined : ¬∀ (mbr : Option Buf) (total size : ℕ), ∀ part ∈ (mbrScan mbr total size).2,
    part.startLba + part.secCount ≤ total ∧
      ∀ sector < 2 ^ 64, ∀ count < 2 ^ 64, part.Keeps sector count := by
  intro hall
  obtain ⟨-, hkeeps⟩ := hall (some smallMbr) 16 512 smallPartition smallPartition_registered
  obtain ⟨-, hwrite⟩ := hkeeps 4 (by decide) 1 (by decide) (fun _ => smallPartition.blockDev)
    (BlockLayer.boot fun _ _ _ => 0) 0 ⟨fun _ => true⟩ (fun _ => 0) (fun _ => 0) rfl
  exact absurd (hwrite.inside 8 (by decide)).2 (by decide)

end LizardOs.Block
