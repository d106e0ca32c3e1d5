import LizardOs.Block.Ata

/-!
# A cached ATA disk

`blk_dev_read` and `blk_dev_write` on the device of a drive: the sector cache in front of the ATA driver.  The disk is an
array of sectors, as far as the drive serves what it is asked (`ataDisk_refines_array`): every write replaces sectors of
the array, and every read that succeeds delivers them, whatever the lines hold and however often the drive lets a read
fail.
-/

namespace LizardOs.Block

open LizardOs.Lib AtaDrive

/-- The lines of the cache and the drive behind them. -/
structure AtaDisk where
  bcache : Fin BCACHE_LINES → BcacheLine Unit
  clock : ℕ
  drive : AtaDrive

/-- The device that `ata_detect_devices` sets up for a drive that names no sector size. -/
def ataDev : BlockDev := ⟨512, true, true⟩

namespace AtaDisk

/-- The block layer over what the drive holds. -/
def layer (k : AtaDisk) : BlockLayer Unit := ⟨k.bcache, k.clock, fun _ s => sectorBytes (k.drive.media s)⟩

/-- The disk with the lines of a block layer. -/
def withLines (k : AtaDisk) (b : BlockLayer Unit) : AtaDisk := { k with bcache := b.bcache, clock := b.clock }

/-- `blk_dev_read`. -/
def blkDevRead (ch : Channel) (k : AtaDisk) (sector count : ℕ) (buffer : Buf) : (ℤ × Buf) × AtaDisk :=
  let r := k.drive.blockRead ch 512 sector buffer count
  if bcacheEligible ataDev count = false then (r.1, { k with drive := r.2 })
  else
    match k.layer.bcacheFind () sector with
    | some i =>
        ((0, splice buffer 0 (k.bcache i).data BCACHE_SECTOR_SIZE),
          { k with
            clock := k.layer.tick
            bcache := Function.update k.bcache i { k.bcache i with lru := k.layer.tick } })
    | none =>
        if r.1.1 ≠ 0 then ((-1, r.1.2), { k with drive := r.2 })
        else ((0, r.1.2), ({ k with drive := r.2 }).withLines (k.layer.bcacheStore () sector r.1.2))

/-- `blk_dev_write`. -/
def blkDevWrite (ch : Channel) (k : AtaDisk) (sector : ℕ) (buffer : Buf) (count : ℕ) : ℤ × AtaDisk :=
  let r := k.drive.blockWrite ch 512 sector buffer count
  if r.1 ≠ 0 then (-1, { k with drive := r.2 })
  else if bcacheEligible ataDev count then
    (0, ({ k with drive := r.2 }).withLines (k.layer.bcacheStore () sector buffer))
  else (0, ({ k with drive := r.2 }).withLines (k.layer.bcacheInvalidateRange () sector count))

/-- The disk at boot. -/
def boot (drive : AtaDrive) : AtaDisk := ⟨fun _ => ⟨none, 0, 0, false, fun _ => 0⟩, 0, drive⟩

end AtaDisk

/-- A call for the disk. -/
inductive DiskCall where
  | read (sector count : ℕ) (buffer : Buf)
  | write (sector : ℕ) (buffer : Buf) (count : ℕ)

namespace DiskCall

/-- The return code and the buffer; a write leaves its buffer alone. -/
def exec (ch : Channel) : DiskCall → AtaDisk → (ℤ × Buf) × AtaDisk
  | .read sector count buffer, k => k.blkDevRead ch sector count buffer
  | .write sector buffer count, k =>
      (((k.blkDevWrite ch sector buffer count).1, buffer), (k.blkDevWrite ch sector buffer count).2)

/-- What a call makes of an array of sectors. -/
def after (a : ℕ → Buf) : DiskCall → ℕ → Buf
  | .read _ _ _ => a
  | .write sector buffer count => fun s =>
      if sector ≤ s ∧ s < sector + count then fun j => buffer ((s - sector) * 512 + j) else a s

/-- The sectors of the call have 28-bit numbers; a write succeeds, and the drive reports no fault behind its data. -/
def Served (ch : Channel) (k : AtaDisk) : DiskCall → Prop
  | .read sector count _ => sector + count ≤ 2 ^ 28
  | .write sector buffer count => sector + count ≤ 2 ^ 28 ∧ (k.blkDevWrite ch sector buffer count).1 = 0 ∧
      ∀ i < count, (k.drive.script (2 * i + 1)).fault = false

end DiskCall

namespace AtaDisk

/-- The cache agrees with the drive, and the drive holds the array. -/
structure Tracks (k : AtaDisk) (a : ℕ → Buf) : Prop where
  coherent : Coherent (fun _ => ataDev) k.layer
  holds : ∀ s, ∀ j < 512, sectorBytes (k.drive.media s) j = a s j

section

variable {ch : Channel} {k : AtaDisk} {a : ℕ → Buf} {sector count : ℕ}

/-- Coherence looks at the first 512 bytes of a sector only. -/
theorem coherent_congr {info : Unit → BlockDev} {b b' : BlockLayer Unit} (hcache : b'.bcache = b.bcache)
    (hdisk : ∀ d s, ∀ j < BCACHE_SECTOR_SIZE, b'.disk d s j = b.disk d s j) (h : Coherent info b) : Coherent info b' := by
  constructor
  · rw [hcache]
    exact h.unique
  · intro i hv
    rw [hcache] at hv ⊢
    obtain ⟨d, hdev, hwidth, hdata⟩ := h.fresh i hv
    exact ⟨d, hdev, hwidth, fun j hj => (hdata j hj).trans (hdisk d _ j hj).symm⟩

/-- What a line stores are 512 bytes. -/
theorem bcacheStore_congr (b : BlockLayer Unit) (sector : ℕ) {data data' : Buf}
    (h : ∀ j < BCACHE_SECTOR_SIZE, data j = data' j) : b.bcacheStore () sector data = b.bcacheStore () sector data' := by
  rw [BlockLayer.bcacheStore, BlockLayer.bcacheStore, splice_congr h]

/-- A buffer that the driver has filled holds the contents of the device. -/
theorem blockRead_contents (ch : Channel) (k : AtaDisk) (hrange : sector + count ≤ 2 ^ 28) (buffer : Buf)
    (hrc : (k.drive.blockRead ch 512 sector buffer count).1.1 = 0) : ∀ j < count * 512,
      (k.drive.blockRead ch 512 sector buffer count).1.2 j = k.layer.contents (fun _ => ataDev) () sector j := by
  rw [blockRead_eq ch 512 (by omega)] at hrc ⊢
  obtain ⟨-, -, -, -, hbytes⟩ := blockReadLoop_spec ch (le_refl 512) count sector 0 buffer k.drive
  intro j hj
  have hplace := hbytes hrc (j / 512) (by omega) (j % 512) (Nat.mod_lt _ (by decide))
  rw [Nat.zero_add, Nat.div_add_mod'] at hplace
  have hlba : lba28 (sector + j / 512) = sector + j / 512 := Nat.mod_eq_of_lt (by omega)
  rw [hplace, hlba]
  rfl

/-- **A read of the disk** is a read of the block layer over what the drive holds, with the answer of the driver. -/
theorem blkDevRead_layer (ch : Channel) (k : AtaDisk) (hrange : sector + count ≤ 2 ^ 28) (buffer : Buf) : ∃ ops : Answer,
    (k.blkDevRead ch sector count buffer).2.layer =
      (k.layer.blkDevRead (fun _ => ataDev) (some ()) sector count buffer ops).2 ∧
    (k.blkDevRead ch sector count buffer).2.drive.media = k.drive.media ∧
    (k.blkDevRead ch sector count buffer).1.1 =
      (k.layer.blkDevRead (fun _ => ataDev) (some ()) sector count buffer ops).1.1 ∧
    ((k.blkDevRead ch sector count buffer).1.1 = 0 → ∀ j < count * 512, (k.blkDevRead ch sector count buffer).1.2 j =
      (k.layer.blkDevRead (fun _ => ataDev) (some ()) sector count buffer ops).1.2 j) := by
  obtain ⟨hmedia, hcode, -, -, -⟩ := blockReadLoop_spec ch (le_refl 512) count sector 0 buffer k.drive
  rw [← blockRead_eq ch 512 (show sector + count < 2 ^ 64 by omega)] at hmedia hcode
  have hbytes := blockRead_contents ch k hrange buffer
  generalize hr : k.drive.blockRead ch 512 sector buffer count = r at hmedia hcode hbytes
  refine ⟨⟨r.1.1, r.1.2⟩, ?_⟩
  have hops : ¬(ataDev.hasRead = false) := by decide
  have hsame : ∀ b : BlockLayer Unit,
      (({ k with drive := r.2 }).withLines b).layer = { b with disk := k.layer.disk } := by
    intro b
    simp only [layer, withLines, hmedia]
  rw [blkDevRead, BlockLayer.blkDevRead, if_neg hops, hr]
  cases hel : bcacheEligible ataDev count with
  | false =>
    simp only [if_true]
    have hlayer : layer { k with drive := r.2 } = k.layer := by simp only [layer, hmedia]
    rw [hlayer]
    split
    · rename_i hzero
      exact ⟨rfl, hmedia, hzero, fun _ => hbytes hzero⟩
    · exact ⟨rfl, hmedia, rfl, fun _ _ _ => rfl⟩
  | true =>
    simp only [Bool.true_eq_false, if_false]
    obtain ⟨hcount, -⟩ := eligible_width hel
    cases hfind : k.layer.bcacheFind () sector with
    | some i => exact ⟨rfl, rfl, rfl, fun _ _ _ => rfl⟩
    | none =>
      by_cases hzero : r.1.1 = 0
      · simp only [ne_eq, hzero, not_true_eq_false, if_false, if_true]
        have hline : ∀ j < BCACHE_SECTOR_SIZE, r.1.2 j = k.layer.contents (fun _ => ataDev) () sector j := by
          intro j hj
          apply hbytes hzero
          rw [hcount]
          exact hj
        refine ⟨?_, hmedia, trivial, fun _ => hbytes hzero⟩
        rw [hsame, bcacheStore_congr k.layer sector hline]
        rfl
      · simp only [ne_eq, hzero, not_false_eq_true, if_true, if_false]
        have hlayer : layer { k with drive := r.2 } = k.layer := by simp only [layer, hmedia]
        exact ⟨hlayer, hmedia, trivial, fun h => absurd h (by decide)⟩

/-- A word of a buffer comes back as its two bytes. -/
theorem leByte_le16 (b : Buf) (i : ℕ) {e : ℕ} (he : e < 2) : leByte (le16 b i).toNat e = b (i + e) := by
  have h0 := (b i).toNat_lt
  have h1 := (b (i + 1)).toNat_lt
  apply UInt8.toNat_inj.mp
  rw [leByte_toNat, le16_toNat]
  have hcases : e = 0 ∨ e = 1 := by omega
  rcases hcases with rfl | rfl
  · simp only [Nat.pow_zero, Nat.div_one, Nat.add_zero]
    omega
  · rw [Nat.pow_one]
    omega

/-- A sector that was taken from a buffer holds its bytes. -/
theorem sectorBytes_of_buffer {w : Words} {buffer : Buf} {off : ℕ} (h : ∀ i < 256, w i = bufferWords buffer off i) {j : ℕ}
    (hj : j < 512) : sectorBytes w j = buffer (off + j) := by
  rw [sectorBytes, h (j / 2) (by omega), bufferWords, leByte_le16 _ _ (Nat.mod_lt j (by decide)), Nat.add_assoc,
    Nat.div_add_mod]

/-- What a write that is served leaves behind. -/
theorem blkDevWrite_served {buffer : Buf} (hserved : (DiskCall.write sector buffer count).Served ch k) :
    (k.blkDevWrite ch sector buffer count).2.layer.bcache =
      (k.layer.blkDevWrite (fun _ => ataDev) (some ()) sector buffer count ⟨0, buffer⟩).2.bcache ∧
    ∀ s, ∀ j < 512, sectorBytes ((k.blkDevWrite ch sector buffer count).2.drive.media s) j =
      if sector ≤ s ∧ s < sector + count then buffer ((s - sector) * 512 + j) else sectorBytes (k.drive.media s) j := by
  obtain ⟨hrange, hrc, hlate⟩ := hserved
  obtain ⟨-, hflush, hkept⟩ := AtaDrive.blockWrite_flush ch 512 hrange buffer k.drive
  obtain ⟨-, -, -, n, -, hloop, hwritten⟩ := AtaDrive.blockWriteLoop_spec ch 512 0 hrange buffer k.drive
  have hall := fun h => hloop (hflush.mp h).1
  rw [← hkept] at hwritten
  rw [blkDevWrite] at hrc ⊢
  generalize k.drive.blockWrite ch 512 sector buffer count = r at hrc hall hwritten ⊢
  by_cases hzero : r.1 = 0
  · obtain rfl := hall hzero
    have hmedia : ∀ s, ∀ j < 512, sectorBytes (r.2.media s) j =
        if sector ≤ s ∧ s < sector + n then buffer ((s - sector) * 512 + j) else sectorBytes (k.drive.media s) j := by
      intro s j hj
      split
      · rename_i hin
        obtain ⟨i, rfl⟩ : ∃ i, s = sector + i := ⟨s - sector, by omega⟩
        rw [Nat.add_sub_cancel_left, sectorBytes_of_buffer (hwritten.written i (by omega) (hlate i (by omega))) hj,
          Nat.zero_add]
      · rename_i hout
        rw [hwritten.kept s fun i hi h => absurd (show sector ≤ s ∧ s < sector + n by omega) hout]
    have hops : ¬(ataDev.hasWrite = false) := by decide
    have hno : ¬(0 : ℤ) ≠ 0 := not_not.mpr rfl
    rw [if_neg (not_not.mpr hzero), BlockLayer.blkDevWrite, if_neg hops, if_neg hno]
    split
    · exact ⟨rfl, hmedia⟩
    · exact ⟨rfl, hmedia⟩
  · rw [if_pos hzero] at hrc
    have hcode : (-1 : ℤ) = 0 := hrc
    exact absurd hcode (by decide)

/-- **A call that is served** keeps the cache in agreement with the drive, and the drive with the array. -/
theorem Tracks.step {c : DiskCall} (h : Tracks k a) (hserved : c.Served ch k) :
    Tracks (c.exec ch k).2 (c.after a) := by
  cases c with
  | read sector count buffer =>
    obtain ⟨ops, hlayer, hmedia, -, -⟩ := blkDevRead_layer ch k hserved buffer
    constructor
    · show Coherent _ (k.blkDevRead ch sector count buffer).2.layer
      rw [hlayer]
      exact coherent_read h.coherent ..
    · show ∀ s, ∀ j < 512, sectorBytes ((k.blkDevRead ch sector count buffer).2.drive.media s) j = a s j
      rw [hmedia]
      exact h.holds
  | write sector buffer count =>
    obtain ⟨hcache, hmedia⟩ := blkDevWrite_served hserved
    have hrange : sector + count ≤ 2 ^ 28 := hserved.1
    have hops : ¬(ataDev.hasWrite = false) := by decide
    have hno : ¬(0 : ℤ) ≠ 0 := not_not.mpr rfl
    constructor
    · apply coherent_congr hcache _ (coherent_write h.coherent (some ()) buffer ⟨0, buffer⟩ (by omega))
      intro d s j hj
      show sectorBytes ((k.blkDevWrite ch sector buffer count).2.drive.media s) j = _
      rw [hmedia s j hj, BlockLayer.blkDevWrite, if_neg hops, if_neg hno]
      have hdisk : (k.layer.writeSectors (fun _ => ataDev) () sector count buffer).disk d s j =
          if sector ≤ s ∧ s < sector + count then buffer ((s - sector) * 512 + j)
          else sectorBytes (k.drive.media s) j := by
        rw [BlockLayer.writeSectors]
        by_cases hin : sector ≤ s ∧ s < sector + count
        · rw [if_pos hin]
          exact congrFun (if_pos ⟨rfl, hin⟩) j
        · rw [if_neg hin]
          exact congrFun (if_neg fun hall => hin hall.2) j
      rw [← hdisk]
      split
      · rfl
      · rfl
    · intro s j hj
      show sectorBytes ((k.blkDevWrite ch sector buffer count).2.drive.media s) j = _
      rw [hmedia s j hj]
      by_cases hin : sector ≤ s ∧ s < sector + count
      · have hafter : (DiskCall.write sector buffer count).after a s = fun j => buffer ((s - sector) * 512 + j) :=
          if_pos hin
        rw [if_pos hin, hafter]
      · have hafter : (DiskCall.write sector buffer count).after a s = a s := if_neg hin
        rw [if_neg hin, hafter, h.holds s j hj]

end

/-- **The cached disk is an array of sectors**, in every run of calls that are served: the drive holds the array that the
writes of the run make of what it held at first, and a read that returns 0 then delivers the bytes of this array. -/
theorem ataDisk_refines_array (ch : Channel) (drive : AtaDrive) (calls : List DiskCall)
    (hserved : Along (DiskCall.exec ch) (fun k c => c.Served ch k) calls (boot drive)) :
    let k := (runCalls (DiskCall.exec ch) calls (boot drive)).2
    let a := calls.foldl DiskCall.after fun s => sectorBytes (drive.media s)
    (∀ s, ∀ j < 512, sectorBytes (k.drive.media s) j = a s j) ∧
      ∀ sector count buffer, sector + count ≤ 2 ^ 28 → (k.blkDevRead ch sector count buffer).1.1 = 0 →
        ∀ j < count * 512, (k.blkDevRead ch sector count buffer).1.2 j = a (sector + j / 512) (j % 512) := by
  have hrun : ∀ (calls : List DiskCall) (k : AtaDisk) (a : ℕ → Buf), Tracks k a →
      Along (DiskCall.exec ch) (fun k c => c.Served ch k) calls k →
      Tracks (runCalls (DiskCall.exec ch) calls k).2 (calls.foldl DiskCall.after a) := by
    intro calls
    induction calls with
    | nil => exact fun k a h _ => h
    | cons c calls ih => exact fun k a h hall => ih _ _ (h.step hall.1) hall.2
  have hboot : Tracks (boot drive) fun s => sectorBytes (drive.media s) := by
    refine ⟨⟨fun i j hi => ?_, fun i hi => ?_⟩, fun s j _ => rfl⟩
    · cases hi
    · cases hi
  have hend := hrun calls _ _ hboot hserved
  refine ⟨hend.holds, fun sector count buffer hrange hrc j hj => ?_⟩
  obtain ⟨ops, -, -, hcode, hbytes⟩ := blkDevRead_layer ch
    (runCalls (DiskCall.exec ch) calls (boot drive)).2 hrange buffer
  obtain ⟨d, -, hread⟩ := read_contents hend.coherent (some ()) sector count buffer ops (hcode.symm.trans hrc)
  have hplace : j % 512 < 512 := Nat.mod_lt j (by decide)
  rw [hbytes hrc j hj, hread j hj]
  exact hend.holds _ _ hplace

/-- On a calm drive a sector is written through the cache and comes back. -/
theorem ataDisk_refines_array_calm :
    let k := (runCalls (DiskCall.exec .primary) [.write 7 (fun _ => 0x2B) 1] (boot calmDrive)).2
    sectorBytes (k.drive.media 7) 3 = 0x2B ∧ ∀ buffer, (k.blkDevRead .primary 7 1 buffer).1.1 = 0 →
      (k.blkDevRead .primary 7 1 buffer).1.2 3 = 0x2B := by
  have hrange : 7 + 1 ≤ 2 ^ 28 := by decide
  have hsoon : 7 < 1000004 ∧ 7 < 100004 ∧ 7 < 100000 := by decide
  obtain ⟨-, hzero, -⟩ := blockWrite_flush .primary 512 hrange (fun _ => 0x2B) calmDrive
  obtain ⟨-, hloop, -⟩ := blockWriteLoop_spec .primary 512 0 hrange (fun _ => 0x2B) calmDrive
  have hrc := hzero.mpr ⟨hloop.mpr ⟨fun _ => hsoon.2.2, fun i _ => ⟨hsoon.1, rfl, hsoon.2.1⟩⟩, hsoon.2.2⟩
  have hcall : ((boot calmDrive).blkDevWrite .primary 7 (fun _ => 0x2B) 1).1 = 0 := by
    rw [blkDevWrite]
    refine (congrArg Prod.fst (if_neg (not_not.mpr hrc))).trans ?_
    split
    · rfl
    · rfl
  obtain ⟨hmedia, hread⟩ := ataDisk_refines_array .primary calmDrive [.write 7 (fun _ => 0x2B) 1]
    ⟨⟨hrange, hcall, fun _ _ => rfl⟩, trivial⟩
  exact ⟨hmedia 7 3 (by decide), fun buffer h => hread 7 1 buffer hrange h 3 (by decide)⟩

end AtaDisk

end LizardOs.Block
