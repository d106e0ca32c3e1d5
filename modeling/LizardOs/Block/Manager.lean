import LizardOs.Block.Partition
import LizardOs.Lib.Steps
import Mathlib.Data.List.Perm.Subperm

/-!
# The block devices

`blkdev_manager.c`: the list of the registered devices and the bitmap of their ids.  A disk that is added has its
partition table scanned, and its partitions are added in the middle of that.

`blkdev_manager_remove` frees the id and leaves the device in the list, and an id that there is not is given to a device
all the same.  While nothing that is registered is removed and the ids suffice, list and bitmap say the same
(`blkdevManager_iff`).
-/

namespace LizardOs.Block

open LizardOs.Lib

def MAX_BLKDEVS : ℕ := 16
def DEFAULT_NAME_SIZE : ℕ := 32

/-- `enum blkdev_type`. -/
inductive BlkdevType where
  | physical
  | partition
deriving DecidableEq

/-- `struct block_dev_ops`: which of the operations are there. -/
structure BlockDevOps where
  read : Bool
  write : Bool

/-- What the manager reads of `struct block_dev`.  `firstSector` is what `mbr_read` gets from it, if anything. -/
structure RegDev where
  name : List UInt8
  id : UInt32
  type : BlkdevType
  totalSectors : ℕ
  sectorSize : ℕ
  ops : Option BlockDevOps
  firstSector : Option Buf

/-- `blk_devs`, first one first, and `blkdev_id_bitmap`. -/
structure Manager where
  blkDevs : List RegDev
  blkdevIdBitmap : ℕ → BitVec 8

namespace Manager

/-! ### Ids -/

/-- Whether the bit of an id is set. -/
def hasId (bitmap : ℕ → BitVec 8) (i : ℕ) : Bool := decide (bitmap (i / 8) &&& BitVec.twoPow 8 (i % 8) ≠ 0)

/-- `blkdev_id_bitmap[byte] |= (1 << bit)`. -/
def setId (bitmap : ℕ → BitVec 8) (i : ℕ) : ℕ → BitVec 8 :=
  Function.update bitmap (i / 8) (bitmap (i / 8) ||| BitVec.twoPow 8 (i % 8))

/-- `blkdev_alloc_id`: the id, `-1` as one when there is none, and the bitmap. -/
def blkdevAllocId (bitmap : ℕ → BitVec 8) : UInt32 × (ℕ → BitVec 8) :=
  match (List.range MAX_BLKDEVS).find? fun i => !hasId bitmap i with
  | some i => (UInt32.ofNat i, setId bitmap i)
  | none => (0xFFFFFFFF, bitmap)

/-- `blkdev_free_id`. -/
def blkdevFreeId (bitmap : ℕ → BitVec 8) (id : UInt32) : ℕ → BitVec 8 :=
  Function.update bitmap (id.toNat / 8) (bitmap (id.toNat / 8) &&& ~~~BitVec.twoPow 8 (id.toNat % 8))

/-! ### Adding -/

/-- The checks of `blkdev_manager_add`. -/
def accepts (m : Manager) (dev : RegDev) : Bool :=
  (match dev.ops with
    | none => false
    | some ops => ops.read && ops.write) &&
  m.blkDevs.all fun curr => decide (curr.name ≠ dev.name)

/-- `blkdev_manager_add`, with what `mbr_scan` does for a disk. -/
def addScanned (mbrScan : RegDev → Manager → Manager) (dev : Option RegDev) (m : Manager) : ℤ × Manager :=
  match dev with
  | none => (-1, m)
  | some dev =>
      if m.accepts dev = false then (-1, m)
      else
        let (id, bitmap) := blkdevAllocId m.blkdevIdBitmap
        let dev := { dev with id := id }
        let m : Manager := ⟨dev :: m.blkDevs, bitmap⟩
        (0, if dev.type = .physical then mbrScan dev m else m)

/-- The name of a partition: a `p` stands between a digit and the number. -/
def partName (parent : List UInt8) (partNum : ℕ) : List UInt8 :=
  (match parent.getLast? with
    | some c => if 48 ≤ c ∧ c ≤ 57 then parent ++ [112] else parent
    | none => parent) ++ [UInt8.ofNat (48 + partNum)]

/-- The device that `blkdev_register_partition` makes. -/
def partDev (parent : RegDev) (partNum secs : ℕ) : RegDev :=
  ⟨partName parent.name partNum, 0, .partition, secs, parent.sectorSize, some ⟨true, true⟩, none⟩

/-- `blkdev_register_partition`.  A partition is not scanned. -/
def blkdevRegisterPartition (parent : RegDev) (partNum secs : ℕ) (m : Manager) : Manager :=
  (addScanned (fun _ m => m) (some (partDev parent partNum secs)) m).2

/-- The loop of `mbr_scan` over the entries that are left. -/
def mbrScanLoop (mbr : Buf) (dev : RegDev) : List ℕ → Manager → Manager
  | [], m => m
  | i :: is, m =>
      let p := mbrPartition mbr i
      if p.isUsed = false then mbrScanLoop mbr dev is m
      else if p.type = MBRYPE_GPT_PROTECTIVE then m
      else if p.sectorCount = 0 then mbrScanLoop mbr dev is m
      else if dev.totalSectors < (p.lbaFirst + p.sectorCount) % 2 ^ 64 then mbrScanLoop mbr dev is m
      else mbrScanLoop mbr dev is (blkdevRegisterPartition dev i p.sectorCount m)

/-- `mbr_scan`. -/
def mbrScan (dev : RegDev) (m : Manager) : Manager :=
  match dev.firstSector with
  | none => m
  | some mbr => if mbrIsValid mbr = false then m else mbrScanLoop mbr dev (List.range MBR_PARTITION_COUNT) m

/-- `blkdev_manager_add`. -/
def blkdevManagerAdd (dev : Option RegDev) (m : Manager) : ℤ × Manager := addScanned mbrScan dev m

/-- `blkdev_manager_remove`; the loop after `blkdev_free_id` does nothing. -/
def blkdevManagerRemove (id : UInt32) (m : Manager) : Manager :=
  { m with blkdevIdBitmap := blkdevFreeId m.blkdevIdBitmap id }

/-- `blkdev_manager_get`. -/
def blkdevManagerGet (m : Manager) (id : UInt32) : Option RegDev := m.blkDevs.find? fun curr => decide (curr.id = id)

/-- `blkdev_manager_get_by_name`. -/
def blkdevManagerGetByName (m : Manager) (name : List UInt8) : Option RegDev :=
  m.blkDevs.find? fun curr => decide (curr.name = name)

end Manager

open Manager

/-! ### Runs -/

/-- A call of the manager. -/
inductive ManagerCall where
  | add (dev : Option RegDev)
  | remove (id : UInt32)

/-- The manager after a call, and what the call answers. -/
def ManagerCall.exec : ManagerCall → Manager → ℤ × Manager
  | .add dev, m => blkdevManagerAdd dev m
  | .remove id, m => (0, blkdevManagerRemove id m)

/-- The numbers of the entries that `mbr_scan` registers. -/
def partNums (mbr : Buf) (totalSectors : ℕ) : List ℕ → List ℕ
  | [] => []
  | i :: is =>
      let p := mbrPartition mbr i
      if p.isUsed = false then partNums mbr totalSectors is
      else if p.type = MBRYPE_GPT_PROTECTIVE then []
      else if p.sectorCount = 0 then partNums mbr totalSectors is
      else if totalSectors < (p.lbaFirst + p.sectorCount) % 2 ^ 64 then partNums mbr totalSectors is
      else i :: partNums mbr totalSectors is

/-- The partitions of a device that is added. -/
def RegDev.parts (dev : RegDev) : List ℕ :=
  if dev.type = .physical then
    match dev.firstSector with
    | none => []
    | some mbr => if mbrIsValid mbr = false then [] else partNums mbr dev.totalSectors (List.range MBR_PARTITION_COUNT)
  else []

/-- The names of the registered devices. -/
def Manager.names (m : Manager) : List (List UInt8) := m.blkDevs.map RegDev.name

/-- How many devices are registered for one that is added and accepted. -/
def Manager.needed (m : Manager) (dev : RegDev) : ℕ :=
  1 + (dev.parts.filter fun i => decide (partName dev.name i ∉ m.names)).length

/-- A call whose effect the language defines: the names of partitions fit into their arrays, and the id lies in the
bitmap. -/
def ManagerCall.Defined : ManagerCall → Prop
  | .add none => True
  | .add (some dev) => ∀ i ∈ dev.parts, (partName dev.name i).length < DEFAULT_NAME_SIZE
  | .remove id => id.toNat < MAX_BLKDEVS

/-- There are ids for all devices that an accepted one brings, and no device has an id that is removed. -/
def ManagerCall.Ok (m : Manager) : ManagerCall → Prop
  | .add none => True
  | .add (some dev) => m.accepts dev = true → m.blkDevs.length + m.needed dev ≤ MAX_BLKDEVS
  | .remove id => ∀ dev ∈ m.blkDevs, dev.id ≠ id

/-- List and bitmap say the same. -/
structure Manager.Good (m : Manager) : Prop where
  names : m.names.Nodup
  ids : (m.blkDevs.map fun dev => dev.id.toNat).Nodup
  below : ∀ dev ∈ m.blkDevs, dev.id.toNat < MAX_BLKDEVS
  bits : ∀ i < MAX_BLKDEVS, hasId m.blkdevIdBitmap i = true ↔ ∃ dev ∈ m.blkDevs, dev.id.toNat = i

/-- What a call promises: a device that is removed is not found any more, and an addition that fails registers
nothing. -/
def ManagerCall.Kept (m : Manager) : ManagerCall → Prop
  | .add dev => (blkdevManagerAdd dev m).1 ≠ 0 → (blkdevManagerAdd dev m).2 = m
  | .remove id =>
      blkdevManagerGet (blkdevManagerRemove id m) id = none ∧
        ∀ dev ∈ m.blkDevs, dev.id = id → blkdevManagerGetByName (blkdevManagerRemove id m) dev.name = none

/-- One defined call. -/
def ManagerStep (m : Manager) (call : ManagerCall) (m' : Manager) : Prop := call.Defined ∧ (call.exec m).2 = m'

/-- The manager at boot. -/
def bootManager : Manager := ⟨[], fun _ => 0⟩

/-! ### Bits -/

namespace Manager

theorem hasId_eq (bitmap : ℕ → BitVec 8) (i : ℕ) : hasId bitmap i = (bitmap (i / 8)).getLsbD (i % 8) := by
  have hlt : i % 8 < 8 := Nat.mod_lt _ (by decide)
  rw [hasId, BitVec.and_twoPow]
  cases (bitmap (i / 8)).getLsbD (i % 8) with
  | false => rfl
  | true =>
    have hne : BitVec.twoPow 8 (i % 8) ≠ 0#8 := by
      intro hzero
      have hbit := congrArg (fun b => b.getLsbD (i % 8)) hzero
      simp [hlt] at hbit
    exact decide_eq_true hne

theorem hasId_setId (bitmap : ℕ → BitVec 8) (i j : ℕ) :
    hasId (setId bitmap i) j = (decide (j = i) || hasId bitmap j) := by
  have hlt : i % 8 < 8 := Nat.mod_lt _ (by decide)
  rw [hasId_eq, hasId_eq, setId]
  by_cases hbyte : j / 8 = i / 8
  · rw [hbyte, Function.update_self, BitVec.getLsbD_or, BitVec.getLsbD_twoPow, decide_eq_true hlt, Bool.true_and,
      Bool.or_comm]
    exact congrArg (· || _) (decide_eq_decide.mpr (by omega))
  · rw [Function.update_of_ne hbyte, decide_eq_false (by rintro rfl; exact hbyte rfl), Bool.false_or]

theorem hasId_blkdevFreeId (bitmap : ℕ → BitVec 8) (id : UInt32) (j : ℕ) :
    hasId (blkdevFreeId bitmap id) j = (decide (j ≠ id.toNat) && hasId bitmap j) := by
  have hlt : j % 8 < 8 := Nat.mod_lt _ (by decide)
  have hlt' : id.toNat % 8 < 8 := Nat.mod_lt _ (by decide)
  rw [hasId_eq, hasId_eq, blkdevFreeId]
  by_cases hbyte : j / 8 = id.toNat / 8
  · rw [hbyte, Function.update_self, BitVec.getLsbD_and, BitVec.getLsbD_not, BitVec.getLsbD_twoPow, decide_eq_true hlt,
      decide_eq_true hlt', Bool.true_and, Bool.true_and, Bool.and_comm, ← decide_not]
    exact congrArg (· && _) (decide_eq_decide.mpr (by omega))
  · rw [Function.update_of_ne hbyte, decide_eq_true (by rintro rfl; exact hbyte rfl), Bool.true_and]

/-! ### One device -/

variable {m m' : Manager} {dev : RegDev}

/-- Each of the ids that are given is below 16, so there are at most so many devices. -/
theorem Good.length_le (h : m.Good) : m.blkDevs.length ≤ MAX_BLKDEVS := by
  have hsub : m.blkDevs.map (fun dev => dev.id.toNat) ⊆ List.range MAX_BLKDEVS := by
    intro i hi
    obtain ⟨dev, hdev, rfl⟩ := List.mem_map.mp hi
    exact List.mem_range.mpr (h.below dev hdev)
  have hle := (h.ids.subperm hsub).length_le
  rwa [List.length_map, List.length_range] at hle

/-- With fewer devices than ids there is an id that is free. -/
theorem Good.exists_free (h : m.Good) (hroom : m.blkDevs.length < MAX_BLKDEVS) :
    ∃ i < MAX_BLKDEVS, blkdevAllocId m.blkdevIdBitmap = (UInt32.ofNat i, setId m.blkdevIdBitmap i) ∧
      hasId m.blkdevIdBitmap i = false := by
  cases hfind : (List.range MAX_BLKDEVS).find? fun i => !hasId m.blkdevIdBitmap i with
  | some i =>
    have hfree := List.find?_some hfind
    refine ⟨i, List.mem_range.mp (List.mem_of_find?_eq_some hfind), ?_, by simpa using hfree⟩
    rw [blkdevAllocId, hfind]
  | none =>
    have hall : List.range MAX_BLKDEVS ⊆ m.blkDevs.map fun dev => dev.id.toNat := by
      intro i hi
      have hset : hasId m.blkdevIdBitmap i = true := by simpa using List.find?_eq_none.mp hfind i hi
      obtain ⟨dev, hdev, hid⟩ := (h.bits i (List.mem_range.mp hi)).mp hset
      exact List.mem_map.mpr ⟨dev, hdev, hid⟩
    have hle := (List.nodup_range.subperm hall).length_le
    rw [List.length_map, List.length_range] at hle
    omega

theorem accepts_name (h : m.accepts dev = true) : dev.name ∉ m.names := by
  rw [accepts, Bool.and_eq_true] at h
  intro hmem
  obtain ⟨curr, hcurr, hname⟩ := List.mem_map.mp hmem
  exact of_decide_eq_true (List.all_eq_true.mp h.2 curr hcurr) hname

/-- The manager after a device was accepted, before its partitions. -/
def registered (m : Manager) (dev : RegDev) : Manager :=
  ⟨{ dev with id := (blkdevAllocId m.blkdevIdBitmap).1 } :: m.blkDevs, (blkdevAllocId m.blkdevIdBitmap).2⟩

theorem names_registered (m : Manager) (dev : RegDev) : (m.registered dev).names = dev.name :: m.names := rfl

/-- **A device that is accepted** gets an id that was free. -/
theorem Good.registered (h : m.Good) (hname : dev.name ∉ m.names) (hroom : m.blkDevs.length < MAX_BLKDEVS) :
    (m.registered dev).Good := by
  obtain ⟨i, hi, halloc, hfree⟩ := h.exists_free hroom
  have hid : (UInt32.ofNat i).toNat = i := UInt32.toNat_ofNat_of_lt' (Nat.lt_trans hi (by decide))
  have hnot : ∀ d ∈ m.blkDevs, d.id.toNat ≠ i := by
    intro d hd heq
    rw [(h.bits i hi).mpr ⟨d, hd, heq⟩] at hfree
    cases hfree
  rw [Manager.registered, halloc]
  refine ⟨List.nodup_cons.mpr ⟨hname, h.names⟩, ?_, ?_, ?_⟩
  · rw [List.map_cons, List.nodup_cons]
    refine ⟨?_, h.ids⟩
    simp only [hid, List.mem_map, not_exists, not_and]
    exact hnot
  · intro d hd
    rcases List.mem_cons.mp hd with rfl | hd
    · exact hid.symm ▸ hi
    · exact h.below d hd
  · intro j hj
    simp only [hasId_setId, Bool.or_eq_true, decide_eq_true_eq, List.mem_cons, exists_eq_or_imp, hid, h.bits j hj]
    exact or_congr eq_comm Iff.rfl

/-! ### The partitions of a disk -/

/-- Numbers of one digit give different names. -/
theorem partName_injective {parent : List UInt8} {i j : ℕ} (hi : i < 10) (hj : j < 10)
    (h : partName parent i = partName parent j) : i = j := by
  have hlast := List.append_cancel_left h
  have hbyte := congrArg UInt8.toNat (List.cons.inj hlast).1
  rw [UInt8.toNat_ofNat', UInt8.toNat_ofNat'] at hbyte
  omega

theorem partName_ne (parent : List UInt8) (i : ℕ) : partName parent i ≠ parent := by
  intro h
  have hlen := congrArg List.length h
  rw [partName, List.length_append, List.length_singleton] at hlen
  split at hlen
  · split at hlen
    · rw [List.length_append, List.length_singleton] at hlen
      omega
    · omega
  · omega

theorem partNums_sublist (mbr : Buf) (totalSectors : ℕ) (is : List ℕ) : (partNums mbr totalSectors is).Sublist is := by
  induction is with
  | nil => exact .slnil
  | cons i is ih =>
    rw [partNums]
    split
    · exact ih.cons i
    · split
      · exact List.nil_sublist _
      · split
        · exact ih.cons i
        · split
          · exact ih.cons i
          · exact ih.cons_cons i

/-- The entries that `mbr_scan` of the partition table makes devices of are the ones registered here. -/
theorem mbrScanFrom_partNums (mbr : Buf) (totalSectors sectorSize : ℕ) (is : List ℕ) (reg : List Partition) :
    (mbrScanFrom mbr totalSectors sectorSize is reg).2 = reg ++ (partNums mbr totalSectors is).map fun i =>
      ⟨(mbrPartition mbr i).lbaFirst, (mbrPartition mbr i).sectorCount, sectorSize⟩ := by
  induction is generalizing reg with
  | nil => exact (List.append_nil reg).symm
  | cons i is ih =>
    rw [mbrScanFrom, partNums]
    split
    · exact ih reg
    · split
      · exact (List.append_nil reg).symm
      · split
        · exact ih reg
        · split
          · exact ih reg
          · rw [ih, List.map_cons, List.append_assoc]
            rfl

/-- The numbers of the partitions of a device are different and have one digit. -/
theorem parts_nodup (dev : RegDev) : dev.parts.Nodup ∧ ∀ i ∈ dev.parts, i < 10 := by
  have hsub : dev.parts.Sublist (List.range MBR_PARTITION_COUNT) := by
    rw [RegDev.parts]
    split
    · split
      · exact List.nil_sublist _
      · split
        · exact List.nil_sublist _
        · exact partNums_sublist _ _ _
    · exact List.nil_sublist _
  refine ⟨hsub.nodup List.nodup_range, fun i hi => ?_⟩
  exact Nat.lt_trans (List.mem_range.mp (hsub.subset hi)) (by decide)

/-- Registering some entries of the table one after another. -/
def registerParts (mbr : Buf) (dev : RegDev) (is : List ℕ) (m : Manager) : Manager :=
  is.foldl (fun m i => blkdevRegisterPartition dev i (mbrPartition mbr i).sectorCount m) m

theorem mbrScanLoop_eq (mbr : Buf) (dev : RegDev) (is : List ℕ) (m : Manager) :
    mbrScanLoop mbr dev is m = registerParts mbr dev (partNums mbr dev.totalSectors is) m := by
  induction is generalizing m with
  | nil => rfl
  | cons i is ih =>
    rw [mbrScanLoop, partNums]
    split
    · exact ih m
    · split
      · rfl
      · split
        · exact ih m
        · split
          · exact ih m
          · exact ih _

theorem blkdevRegisterPartition_eq (parent : RegDev) (i secs : ℕ) (m : Manager) :
    blkdevRegisterPartition parent i secs m =
      if partName parent.name i ∈ m.names then m else m.registered (partDev parent i secs) := by
  have haccepts : m.accepts (partDev parent i secs) = decide (partName parent.name i ∉ m.names) := by
    rw [accepts]
    show (true && m.blkDevs.all fun curr => decide (curr.name ≠ partName parent.name i)) = _
    rw [Bool.true_and, Bool.eq_iff_iff, List.all_eq_true, decide_eq_true_iff, names, List.mem_map]
    constructor
    · rintro hall ⟨curr, hcurr, hname⟩
      exact of_decide_eq_true (hall curr hcurr) hname
    · intro hno curr hcurr
      exact decide_eq_true fun hname => hno ⟨curr, hcurr, hname⟩
  rw [blkdevRegisterPartition, addScanned]
  by_cases hmem : partName parent.name i ∈ m.names
  · rw [if_pos (by rw [haccepts]; exact decide_eq_false (not_not.mpr hmem)), if_pos hmem]
  · rw [if_neg (by rw [haccepts, decide_eq_true hmem]; exact Bool.false_ne_true.symm), if_neg hmem]
    rfl

/-- **The partitions** of a disk: one device more for each name that is new, and list and bitmap agree while there are
ids. -/
theorem registerParts_spec (mbr : Buf) (dev : RegDev) (is : List ℕ) (hnodup : is.Nodup) (hsmall : ∀ i ∈ is, i < 10)
    (m : Manager) :
    (registerParts mbr dev is m).blkDevs.length =
        m.blkDevs.length + (is.filter fun i => decide (partName dev.name i ∉ m.names)).length ∧
      (m.Good → m.blkDevs.length + (is.filter fun i => decide (partName dev.name i ∉ m.names)).length ≤ MAX_BLKDEVS →
        (registerParts mbr dev is m).Good) := by
  induction is generalizing m with
  | nil => exact ⟨rfl, fun h _ => h⟩
  | cons i is ih =>
    obtain ⟨hi, hnodup⟩ := List.nodup_cons.mp hnodup
    have hsmall' : ∀ j ∈ is, j < 10 := fun j hj => hsmall j (List.mem_cons_of_mem i hj)
    have hrun : registerParts mbr dev (i :: is) m =
        registerParts mbr dev is (blkdevRegisterPartition dev i (mbrPartition mbr i).sectorCount m) := rfl
    rw [hrun, blkdevRegisterPartition_eq]
    by_cases hmem : partName dev.name i ∈ m.names
    · rw [if_pos hmem, List.filter_cons_of_neg (by simpa using hmem)]
      exact ih hnodup hsmall' m
    · -- the names of the partitions that are left are as new as before
      have hsame : (is.filter fun j => decide (partName dev.name j ∉
            (m.registered (partDev dev i (mbrPartition mbr i).sectorCount)).names)) =
          is.filter fun j => decide (partName dev.name j ∉ m.names) := by
        refine List.filter_congr fun j hj => decide_eq_decide.mpr ?_
        have hne : partName dev.name j ≠ partName dev.name i := by
          intro heq
          rw [partName_injective (hsmall' j hj) (hsmall i List.mem_cons_self) heq] at hj
          exact hi hj
        rw [names_registered, List.mem_cons, not_or]
        exact ⟨And.right, fun h => ⟨hne, h⟩⟩
      obtain ⟨hlen, hgood⟩ := ih hnodup hsmall' (m.registered (partDev dev i (mbrPartition mbr i).sectorCount))
      rw [hsame] at hlen hgood
      have hone : (m.registered (partDev dev i (mbrPartition mbr i).sectorCount)).blkDevs.length =
          m.blkDevs.length + 1 := rfl
      rw [hone] at hlen hgood
      rw [if_neg hmem, List.filter_cons_of_pos (by simpa using hmem), List.length_cons]
      refine ⟨by omega, fun h hroom => hgood (h.registered hmem (by omega)) (by omega)⟩

/-! ### One call -/

/-- A device that is refused changes nothing. -/
theorem blkdevManagerAdd_refused (h : m.accepts dev = false) : blkdevManagerAdd (some dev) m = (-1, m) := by
  rw [blkdevManagerAdd, addScanned, if_pos h]

/-- A device that is accepted is registered, and its partitions after it. -/
theorem blkdevManagerAdd_accepted (h : m.accepts dev = true) :
    ∃ mbr, blkdevManagerAdd (some dev) m = (0, registerParts mbr
      { dev with id := (blkdevAllocId m.blkdevIdBitmap).1 } dev.parts (m.registered dev)) := by
  rw [blkdevManagerAdd, addScanned, if_neg (by rw [h]; exact Bool.false_ne_true.symm)]
  show ∃ mbr, ((0 : ℤ), if dev.type = .physical then
    mbrScan { dev with id := (blkdevAllocId m.blkdevIdBitmap).1 } (m.registered dev) else m.registered dev) = _
  rw [RegDev.parts]
  by_cases hdisk : dev.type = .physical
  · rw [if_pos hdisk, if_pos hdisk, mbrScan]
    cases hsector : dev.firstSector with
    | none => exact ⟨fun _ => 0, rfl⟩
    | some mbr =>
      refine ⟨mbr, congrArg (Prod.mk 0) ?_⟩
      show (if mbrIsValid mbr = false then _ else _) = _
      by_cases hvalid : mbrIsValid mbr = false
      · rw [if_pos hvalid]
        show m.registered dev = registerParts mbr _ (if mbrIsValid mbr = false then [] else _) _
        rw [if_pos hvalid]
        rfl
      · rw [if_neg hvalid, mbrScanLoop_eq]
        show _ = registerParts mbr _ (if mbrIsValid mbr = false then [] else _) _
        rw [if_neg hvalid]
  · rw [if_neg hdisk, if_neg hdisk]
    exact ⟨fun _ => 0, rfl⟩

/-- The name of a partition is as new as before its disk was registered. -/
theorem fresh_registered (m : Manager) (dev : RegDev) :
    (dev.parts.filter fun i => decide (partName dev.name i ∉ (m.registered dev).names)) =
      dev.parts.filter fun i => decide (partName dev.name i ∉ m.names) := by
  refine List.filter_congr fun i _ => decide_eq_decide.mpr ?_
  rw [names_registered, List.mem_cons, not_or]
  exact ⟨And.right, fun h => ⟨partName_ne dev.name i, h⟩⟩

/-- **Adding** keeps list and bitmap in agreement exactly when there are ids for all that is added. -/
theorem good_add_iff (h : m.Good) (dev : Option RegDev) :
    (ManagerCall.add dev).Ok m ↔ (blkdevManagerAdd dev m).2.Good := by
  cases dev with
  | none => exact iff_of_true trivial h
  | some dev =>
    cases haccepts : m.accepts dev with
    | false =>
      rw [blkdevManagerAdd_refused haccepts]
      refine iff_of_true (fun hyes => ?_) h
      rw [haccepts] at hyes
      cases hyes
    | true =>
      obtain ⟨mbr, hadd⟩ := blkdevManagerAdd_accepted haccepts
      obtain ⟨hnodup, hsmall⟩ := parts_nodup dev
      obtain ⟨hlen, hgood⟩ := registerParts_spec mbr { dev with id := (blkdevAllocId m.blkdevIdBitmap).1 } dev.parts
        hnodup hsmall (m.registered dev)
      have hone : (m.registered dev).blkDevs.length = m.blkDevs.length + 1 := rfl
      simp only [fresh_registered, hone] at hlen hgood
      rw [hadd]
      constructor
      · intro hok
        have hroom := hok haccepts
        rw [needed] at hroom
        exact hgood (h.registered (accepts_name haccepts) (by omega)) (by omega)
      · intro hafter _
        have hle : (registerParts mbr _ dev.parts (m.registered dev)).blkDevs.length ≤ _ := hafter.length_le
        rw [needed]
        omega

/-- **Removing** keeps list and bitmap in agreement exactly when no device has the id. -/
theorem good_remove_iff (h : m.Good) {id : UInt32} (hid : id.toNat < MAX_BLKDEVS) :
    (ManagerCall.remove id).Ok m ↔ (blkdevManagerRemove id m).Good := by
  constructor
  · intro hok
    refine ⟨h.names, h.ids, h.below, fun i hi => ?_⟩
    show hasId (blkdevFreeId m.blkdevIdBitmap id) i = true ↔ _
    rw [hasId_blkdevFreeId, Bool.and_eq_true, decide_eq_true_eq, h.bits i hi]
    refine ⟨And.right, fun ⟨dev, hdev, heq⟩ => ⟨fun hsame => ?_, dev, hdev, heq⟩⟩
    exact hok dev hdev (UInt32.toNat_inj.mp (heq.trans hsame))
  · intro hafter dev hdev heq
    have hset := (hafter.bits id.toNat hid).mpr ⟨dev, hdev, congrArg UInt32.toNat heq⟩
    have hset : hasId (blkdevFreeId m.blkdevIdBitmap id) id.toNat = true := hset
    rw [hasId_blkdevFreeId, decide_eq_false (not_not.mpr rfl)] at hset
    cases hset

/-- A call that is in order keeps its promise. -/
theorem kept_of_ok {call : ManagerCall} (hok : call.Ok m) : call.Kept m := by
  cases call with
  | add dev =>
    intro hfailed
    cases dev with
    | none => rfl
    | some dev =>
      cases haccepts : m.accepts dev with
      | false => rw [blkdevManagerAdd_refused haccepts]
      | true =>
        obtain ⟨mbr, hadd⟩ := blkdevManagerAdd_accepted haccepts
        rw [hadd] at hfailed
        exact absurd rfl hfailed
  | remove id =>
    refine ⟨?_, fun dev hdev heq => absurd heq (hok dev hdev)⟩
    refine List.find?_eq_none.mpr fun dev hdev => ?_
    rw [decide_eq_true_eq]
    exact hok dev hdev

end Manager

/-! ### Runs -/

theorem bootManager_good : bootManager.Good := by
  refine ⟨List.nodup_nil, List.nodup_nil, fun dev hdev => absurd hdev List.not_mem_nil, fun i hi => ?_⟩
  refine iff_of_false ?_ fun ⟨dev, hdev, _⟩ => absurd hdev List.not_mem_nil
  rw [Manager.hasId_eq]
  exact Bool.eq_false_iff.mp (BitVec.getLsbD_zero)

/-- **The manager of block devices.**  In a run of calls from boot, names and ids are different and the bitmap has the
ids in every state reached, and every call keeps its promise, exactly when no call removes the id of a registered device
and none adds devices that there are no ids for. -/
theorem blkdevManager_iff {l : List (Manager × ManagerCall)} {m : Manager} (h : Trace ManagerStep bootManager l m) :
    (∀ x ∈ l, x.2.Ok x.1) ↔ (∀ x ∈ l, x.1.Good ∧ x.2.Kept x.1) ∧ m.Good := by
  have hstep : ∀ m₁ (call : ManagerCall) m₂, m₁.Good → ManagerStep m₁ call m₂ → (call.Ok m₁ ↔ m₂.Good) := by
    rintro m₁ call _ hgood ⟨hdefined, rfl⟩
    cases call with
    | add dev => exact Manager.good_add_iff hgood dev
    | remove id => exact Manager.good_remove_iff hgood hdefined
  have hiff := h.invariant_iff bootManager_good hstep
  constructor
  · intro hok
    obtain ⟨hall, hlast⟩ := hiff.mp hok
    exact ⟨fun x hx => ⟨hall x hx, Manager.kept_of_ok (hok x hx)⟩, hlast⟩
  · rintro ⟨hall, hlast⟩
    exact hiff.mpr ⟨fun x hx => (hall x hx).1, hlast⟩

/-- A disk that cannot be read. -/
def plainDisk (name : List UInt8) : RegDev := ⟨name, 0, .physical, 8, 512, some ⟨true, true⟩, none⟩

/-- The manager after a disk `d0` was added. -/
def oneDisk : Manager := (blkdevManagerAdd (some (plainDisk [100, 48])) bootManager).2

theorem addDisk_step : ManagerStep bootManager (.add (some (plainDisk [100, 48]))) oneDisk :=
  ⟨fun _ hi => absurd hi List.not_mem_nil, rfl⟩

theorem blkdevManager_iff_disk :
    (∀ x ∈ [(bootManager, ManagerCall.add (some (plainDisk [100, 48])))], x.2.Ok x.1) ↔
      (∀ x ∈ [(bootManager, ManagerCall.add (some (plainDisk [100, 48])))], x.1.Good ∧ x.2.Kept x.1) ∧ oneDisk.Good :=
  blkdevManager_iff (.snoc .nil addDisk_step)

/-- A disk that is added and removed is still found by its id and its name, though its id is free again. -/
theorem not_blkdevManager_removed :
    Trace ManagerStep bootManager [(bootManager, .add (some (plainDisk [100, 48]))), (oneDisk, .remove 0)]
        (blkdevManagerRemove 0 oneDisk) ∧
      (blkdevManagerGet (blkdevManagerRemove 0 oneDisk) 0).map RegDev.name = some [100, 48] ∧
      (blkdevManagerGetByName (blkdevManagerRemove 0 oneDisk) [100, 48]).map RegDev.id = some 0 ∧
      ¬(ManagerCall.remove 0).Kept oneDisk ∧ ¬(blkdevManagerRemove 0 oneDisk).Good := by
  have hget : (blkdevManagerGet (blkdevManagerRemove 0 oneDisk) 0).map RegDev.name = some [100, 48] := rfl
  have hfree : hasId (blkdevManagerRemove 0 oneDisk).blkdevIdBitmap 0 = false := rfl
  refine ⟨.snoc (.snoc .nil addDisk_step) ⟨show (0 : UInt32).toNat < 16 by decide, rfl⟩, hget, rfl, fun hkept => ?_,
    fun hgood => ?_⟩
  · rw [hkept.1] at hget
    cases hget
  · have hset := (hgood.bits 0 (by decide)).mpr ⟨_, List.mem_cons_self, rfl⟩
    rw [hfree] at hset
    cases hset

end LizardOs.Block
