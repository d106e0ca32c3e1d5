import LizardOs.Block.Partition
import LizardOs.Lib.ForLoop

/-!
# The ATA driver and its drive

`ata.c` talks to the drive through ports: it waits until the drive is not busy, writes the low 28 bits of a sector number
into four registers, gives a command, polls for the answer, and moves the 256 words of the sector through the data port.

The drive is a machine of its own.  How long it is busy with a command or with the data of a sector, and whether it reports
an error then, is up to it: `script` holds these replies, and nothing is assumed of them.

The driver asks for the status before a command and before the data, and after the data it waits only until the drive is not
busy.  So a sector that the drive could not write after it took the data is not noticed.
-/

namespace LizardOs.Block

open LizardOs.Lib

/-! ### Ports and registers -/

inductive Channel where
  | primary
  | secondary

/-- `base[]`. -/
def Channel.base : Channel → UInt16
  | .primary => 0x1F0
  | .secondary => 0x170

def ATA_REG_DATA : UInt16 := 0x00
def ATA_REG_SECCOUNT0 : UInt16 := 0x02
def ATA_REG_LBA0 : UInt16 := 0x03
def ATA_REG_LBA1 : UInt16 := 0x04
def ATA_REG_LBA2 : UInt16 := 0x05
def ATA_REG_DRIVE : UInt16 := 0x06
def ATA_REG_COMMAND : UInt16 := 0x07
def ATA_REG_STATUS : UInt16 := 0x07

def ATA_CMD_READ_SECT : UInt8 := 0x20
def ATA_CMD_WRITE_SECT : UInt8 := 0x30
def ATA_CMD_CACHE_FLUSH : UInt8 := 0xE7

def ATA_SR_BSY : UInt8 := 0x80
def ATA_SR_DF : UInt8 := 0x20
def ATA_SR_DRQ : UInt8 := 0x08
def ATA_SR_ERR : UInt8 := 0x01

/-- The words of a sector. -/
abbrev Words := ℕ → UInt16

/-! ### The drive -/

/-- How a drive takes a command, or the data of a sector: for how many readings of its status it is busy, and whether it
reports an error then. -/
structure Reply where
  polls : ℕ
  fault : Bool

/-- Sectors on their way through the data port: the current one, how many are left with it, and how far it is. -/
structure Transfer where
  toHost : Bool
  lba : ℕ
  left : ℕ
  words : Words
  moved : ℕ

structure AtaDrive where
  media : ℕ → Words
  seccount : UInt8
  lba0 : UInt8
  lba1 : UInt8
  lba2 : UInt8
  drive : UInt8
  busy : ℕ
  err : Bool
  transfer : Option Transfer
  script : ℕ → Reply

namespace AtaDrive

/-- The sector that the registers select. -/
def lba (d : AtaDrive) : ℕ :=
  d.lba0.toNat + 2 ^ 8 * d.lba1.toNat + 2 ^ 16 * d.lba2.toNat + 2 ^ 24 * (d.drive.toNat % 16)

/-- While it is busy the drive says nothing else. -/
def status (d : AtaDrive) : UInt8 :=
  if d.busy ≠ 0 then ATA_SR_BSY
  else if d.err then ATA_SR_ERR
  else if d.transfer.isSome then ATA_SR_DRQ
  else 0

/-- The next reply of the drive; without a fault it goes on with a transfer. -/
def reply (d : AtaDrive) (transfer : Option Transfer) : AtaDrive :=
  { d with
    busy := (d.script 0).polls
    err := (d.script 0).fault
    transfer := if (d.script 0).fault then none else transfer
    script := fun n => d.script (n + 1) }

/-- The number of sectors that the registers ask for; 0 stands for 256. -/
def wanted (d : AtaDrive) : ℕ := if d.seccount = 0 then 256 else d.seccount.toNat

/-- A command ends what the drive was about. -/
def command (d : AtaDrive) (cmd : UInt8) : AtaDrive :=
  if cmd = ATA_CMD_READ_SECT then d.reply (some ⟨true, d.lba, d.wanted, d.media d.lba, 0⟩)
  else if cmd = ATA_CMD_WRITE_SECT then d.reply (some ⟨false, d.lba, d.wanted, fun _ => 0, 0⟩)
  else d.reply none

/-- What follows a sector. -/
def following (d : AtaDrive) (t : Transfer) : Option Transfer :=
  if t.left ≤ 1 then none
  else some { t with lba := t.lba + 1, left := t.left - 1, words := d.media (t.lba + 1), moved := 0 }

/-- The host has taken a word. -/
def sent (d : AtaDrive) (t : Transfer) : AtaDrive :=
  if t.moved + 1 < 256 then { d with transfer := some { t with moved := t.moved + 1 } }
  else
    match d.following t with
    | none => { d with transfer := none }
    | some next => d.reply (some next)

/-- The host has given a word; behind the last one the sector is written, or a fault is reported. -/
def received (d : AtaDrive) (t : Transfer) (value : UInt16) : AtaDrive :=
  let t := { t with words := Function.update t.words t.moved value, moved := t.moved + 1 }
  if t.moved < 256 then { d with transfer := some t }
  else if (d.script 0).fault then d.reply none
  else
    let d := { d with media := Function.update d.media t.lba t.words }
    d.reply (d.following t)

/-- `inb`, as the drive answers it. -/
def inb (ch : Channel) (port : UInt16) (d : AtaDrive) : UInt8 × AtaDrive :=
  if port = ch.base + ATA_REG_STATUS then (d.status, { d with busy := d.busy - 1 }) else (0, d)

/-- `inw`. -/
def inw (ch : Channel) (port : UInt16) (d : AtaDrive) : UInt16 × AtaDrive :=
  if port ≠ ch.base + ATA_REG_DATA ∨ d.busy ≠ 0 then (0, d)
  else
    match d.transfer with
    | none => (0, d)
    | some t => if t.toHost then (t.words t.moved, d.sent t) else (0, d)

/-- `outb`. -/
def outb (ch : Channel) (port : UInt16) (value : UInt8) (d : AtaDrive) : AtaDrive :=
  if port = ch.base + ATA_REG_SECCOUNT0 then { d with seccount := value }
  else if port = ch.base + ATA_REG_LBA0 then { d with lba0 := value }
  else if port = ch.base + ATA_REG_LBA1 then { d with lba1 := value }
  else if port = ch.base + ATA_REG_LBA2 then { d with lba2 := value }
  else if port = ch.base + ATA_REG_DRIVE then { d with drive := value }
  else if port = ch.base + ATA_REG_COMMAND then d.command value
  else d

/-- `outw`. -/
def outw (ch : Channel) (port : UInt16) (value : UInt16) (d : AtaDrive) : AtaDrive :=
  if port ≠ ch.base + ATA_REG_DATA ∨ d.busy ≠ 0 then d
  else
    match d.transfer with
    | none => d
    | some t => if t.toHost then d else d.received t value

/-! ### The driver -/

/-- `io_wait`. -/
def ioWait (ch : Channel) (d : AtaDrive) : AtaDrive := d.outb ch 0x80 0

/-- The loop of `ata_wait`. -/
def ataWaitLoop (ch : Channel) (mask : UInt8) (set : Bool) : ℕ → AtaDrive → ℤ × AtaDrive
  | 0, d => (-1, d)
  | n + 1, d =>
      let r := d.inb ch (ch.base + ATA_REG_STATUS)
      if set then
        if r.1 &&& mask = mask then (0, r.2) else ataWaitLoop ch mask set n (r.2.ioWait ch)
      else if r.1 &&& mask = 0 then (0, r.2)
      else ataWaitLoop ch mask set n (r.2.ioWait ch)

/-- `ata_wait`. -/
def ataWait (ch : Channel) (mask : UInt8) (set : Bool) (d : AtaDrive) : ℤ × AtaDrive := d.ataWaitLoop ch mask set 100000

/-- `ata_setup_lba`. -/
def ataSetupLba (ch : Channel) (lba : ℕ) (d : AtaDrive) : AtaDrive :=
  let d := d.outb ch (ch.base + ATA_REG_DRIVE) (UInt8.ofNat (0xE0 ||| (lba >>> 24 &&& 0x0F)))
  let d := d.outb ch (ch.base + ATA_REG_SECCOUNT0) 1
  let d := d.outb ch (ch.base + ATA_REG_LBA0) (UInt8.ofNat (lba &&& 0xFF))
  let d := d.outb ch (ch.base + ATA_REG_LBA1) (UInt8.ofNat (lba >>> 8 &&& 0xFF))
  d.outb ch (ch.base + ATA_REG_LBA2) (UInt8.ofNat (lba >>> 16 &&& 0xFF))

/-- `ata_io_delay`. -/
def ataIoDelay (ch : Channel) (d : AtaDrive) : AtaDrive := forLoop 4 (fun _ d => (d.inb ch (ch.base + ATA_REG_STATUS)).2) d

/-- The loop of `ata_poll_data`. -/
def ataPollLoop (ch : Channel) : ℕ → AtaDrive → ℤ × AtaDrive
  | 0, d => (-1, d)
  | n + 1, d =>
      let r := d.inb ch (ch.base + ATA_REG_STATUS)
      if r.1 &&& ATA_SR_BSY ≠ 0 then ataPollLoop ch n (r.2.ioWait ch)
      else if r.1 &&& (ATA_SR_ERR ||| ATA_SR_DF) ≠ 0 then (-1, r.2)
      else if r.1 &&& ATA_SR_DRQ ≠ 0 then (0, r.2)
      else ataPollLoop ch n (r.2.ioWait ch)

/-- `ata_poll_data`. -/
def ataPollData (ch : Channel) (d : AtaDrive) : ℤ × AtaDrive := d.ataPollLoop ch 1000000

/-- One turn of the loop that reads the words of a sector into the buffer. -/
def inWord (ch : Channel) (off i : ℕ) (s : Buf × AtaDrive) : Buf × AtaDrive :=
  let r := s.2.inw ch (ch.base + ATA_REG_DATA)
  (storeLe s.1 (off + 2 * i) 2 r.1.toNat, r.2)

/-- The loop that reads the words of a sector. -/
def inWords (ch : Channel) (off : ℕ) (s : Buf × AtaDrive) : Buf × AtaDrive := forLoop 256 (inWord ch off) s

/-- The loop of `block_read` over the sectors that are left. -/
def blockReadLoop (ch : Channel) (sectorSize : ℕ) : ℕ → ℕ → ℕ → Buf → AtaDrive → (ℤ × Buf) × AtaDrive
  | 0, _, _, buf, d => ((0, buf), d)
  | n + 1, s, off, buf, d =>
      let w := d.ataWait ch ATA_SR_BSY false
      if w.1 ≠ 0 then ((-1, buf), w.2)
      else
        let d := (w.2.ataSetupLba ch s).outb ch (ch.base + ATA_REG_COMMAND) ATA_CMD_READ_SECT
        let p := (d.ataIoDelay ch).ataPollData ch
        if p.1 ≠ 0 then ((-1, buf), p.2)
        else
          let r := inWords ch off (buf, p.2)
          blockReadLoop ch sectorSize n (s + 1) (off + sectorSize) r.1 (r.2.ataIoDelay ch)

/-- `block_read`: the return code and the buffer; the end of the range is a 64-bit sum. -/
def blockRead (ch : Channel) (sectorSize sector : ℕ) (buffer : Buf) (count : ℕ) (d : AtaDrive) : (ℤ × Buf) × AtaDrive :=
  d.blockReadLoop ch sectorSize ((sector + count) % 2 ^ 64 - sector) sector 0 buffer

/-- One turn of the loop that writes the words of a sector. -/
def outWord (ch : Channel) (buf : Buf) (off i : ℕ) (d : AtaDrive) : AtaDrive :=
  d.outw ch (ch.base + ATA_REG_DATA) (le16 buf (off + 2 * i))

/-- The loop that writes the words of a sector. -/
def outWords (ch : Channel) (buf : Buf) (off : ℕ) (d : AtaDrive) : AtaDrive := forLoop 256 (outWord ch buf off) d

/-- The loop of `block_write` over the sectors that are left. -/
def blockWriteLoop (ch : Channel) (sectorSize : ℕ) (buf : Buf) : ℕ → ℕ → ℕ → AtaDrive → ℤ × AtaDrive
  | 0, _, _, d => (0, d)
  | n + 1, s, off, d =>
      let w := d.ataWait ch ATA_SR_BSY false
      if w.1 ≠ 0 then (-1, w.2)
      else
        let d := (w.2.ataSetupLba ch s).outb ch (ch.base + ATA_REG_COMMAND) ATA_CMD_WRITE_SECT
        let p := (d.ataIoDelay ch).ataPollData ch
        if p.1 ≠ 0 then (-1, p.2)
        else
          let d := (outWords ch buf off p.2).ataIoDelay ch
          let w := d.ataWait ch ATA_SR_BSY false
          if w.1 ≠ 0 then (-1, w.2) else blockWriteLoop ch sectorSize buf n (s + 1) (off + sectorSize) w.2

/-- `block_write`. -/
def blockWrite (ch : Channel) (sectorSize sector : ℕ) (buffer : Buf) (count : ℕ) (d : AtaDrive) : ℤ × AtaDrive :=
  let r := d.blockWriteLoop ch sectorSize buffer ((sector + count) % 2 ^ 64 - sector) sector 0
  if r.1 ≠ 0 then (-1, r.2)
  else
    let w := (r.2.outb ch (ch.base + ATA_REG_COMMAND) ATA_CMD_CACHE_FLUSH).ataWait ch ATA_SR_BSY false
    if w.1 ≠ 0 then (-1, w.2) else (0, w.2)

/-! ### Polling -/

section

variable {ch : Channel}

theorem ioWait_eq (ch : Channel) (d : AtaDrive) : d.ioWait ch = d := by
  cases ch
  · rfl
  · rfl

theorem inb_status (d : AtaDrive) :
    d.inb ch (ch.base + ATA_REG_STATUS) = (d.status, { d with busy := d.busy - 1 }) := if_pos rfl

theorem status_busy {d : AtaDrive} (h : d.busy ≠ 0) : d.status = ATA_SR_BSY := if_pos h

theorem status_ready {d : AtaDrive} (h : d.busy = 0) :
    d.status = if d.err then ATA_SR_ERR else if d.transfer.isSome then ATA_SR_DRQ else 0 := if_neg (not_not.mpr h)

theorem status_and_bsy {d : AtaDrive} (h : d.busy = 0) : d.status &&& ATA_SR_BSY = 0 := by
  rw [status_ready h]
  split
  · rfl
  · split
    · rfl
    · rfl

/-- Waiting ends when the drive is not busy any more, or with the last turn. -/
theorem ataWaitLoop_bsy (n : ℕ) (d : AtaDrive) : d.ataWaitLoop ch ATA_SR_BSY false n =
    if d.busy < n then (0, { d with busy := 0 }) else (-1, { d with busy := d.busy - n }) := by
  induction n generalizing d with
  | zero => rfl
  | succ n ih =>
    rw [ataWaitLoop, inb_status]
    by_cases hbusy : d.busy = 0
    · rw [if_neg Bool.false_ne_true, if_pos (status_and_bsy hbusy), if_pos (by omega), hbusy]
    · have hsr : ¬ATA_SR_BSY &&& ATA_SR_BSY = 0 := by decide
      simp only [status_busy hbusy, Bool.false_eq_true, if_false, if_neg hsr, ioWait_eq, ih]
      by_cases hlt : d.busy < n + 1
      · rw [if_pos (by omega), if_pos hlt]
      · rw [if_neg (by omega), if_neg hlt, Nat.sub_sub, Nat.add_comm 1 n]

theorem ataWait_bsy (d : AtaDrive) : d.ataWait ch ATA_SR_BSY false =
    if d.busy < 100000 then (0, { d with busy := 0 }) else (-1, { d with busy := d.busy - 100000 }) :=
  ataWaitLoop_bsy ..

theorem ataIoDelay_eq (d : AtaDrive) : d.ataIoDelay ch = { d with busy := d.busy - 4 } := by
  simp only [ataIoDelay, forLoop, inb_status, Nat.sub_sub]

/-- Polling for data ends when the drive offers or wants some, when it reports an error, or with the last turn. -/
theorem ataPollLoop_eq (n : ℕ) {d : AtaDrive} (h : d.err = d.transfer.isNone) : d.ataPollLoop ch n =
    if d.busy < n then (if d.err then -1 else 0, { d with busy := 0 }) else (-1, { d with busy := d.busy - n }) := by
  induction n generalizing d with
  | zero => rfl
  | succ n ih =>
    rw [ataPollLoop, inb_status]
    by_cases hbusy : d.busy = 0
    · have hzero : d.busy - 1 = 0 := by omega
      rw [if_neg (not_not.mpr (status_and_bsy hbusy)), if_pos (show d.busy < n + 1 by omega), status_ready hbusy, hzero]
      cases hd : d.transfer with
      | none =>
        have herr : d.err = true := by rw [h, hd, Option.isNone_none]
        have hbit : ATA_SR_ERR &&& (ATA_SR_ERR ||| ATA_SR_DF) ≠ 0 := by decide
        rw [herr, if_pos rfl, if_pos rfl, if_pos hbit]
      | some t =>
        have herr : d.err = false := by rw [h, hd, Option.isNone_some]
        have hclear : ¬ATA_SR_DRQ &&& (ATA_SR_ERR ||| ATA_SR_DF) ≠ 0 := by decide
        have hbit : ATA_SR_DRQ &&& ATA_SR_DRQ ≠ 0 := by decide
        rw [herr, if_neg Bool.false_ne_true, if_neg Bool.false_ne_true, Option.isSome_some, if_pos rfl, if_neg hclear,
          if_pos hbit]
    · have hsr : ATA_SR_BSY &&& ATA_SR_BSY ≠ 0 := by decide
      have hnext := @ih { d with busy := d.busy - 1 } h
      simp only [status_busy hbusy, if_pos hsr, ioWait_eq, hnext]
      by_cases hlt : d.busy < n + 1
      · rw [if_pos (by omega), if_pos hlt]
      · rw [if_neg (by omega), if_neg hlt, Nat.sub_sub, Nat.add_comm 1 n]

/-- The replies to `n` commands come in time and report no fault. -/
def Prompt (script : ℕ → Reply) (n : ℕ) : Prop := ∀ i < n, (script i).polls < 1000004 ∧ (script i).fault = false

/-- The polls behind a command that starts a transfer: the drive is ready for it, or they fail. -/
theorem poll_reply (ch : Channel) (d : AtaDrive) (t : Transfer) :
    (Prompt d.script 1 ∧ ∃ d' : AtaDrive, ((d.reply (some t)).ataIoDelay ch).ataPollData ch = (0, d') ∧
      d'.media = d.media ∧ d'.busy = 0 ∧ d'.transfer = some t ∧ d'.script = fun i => d.script (i + 1)) ∨
    (¬Prompt d.script 1 ∧ ∃ d' : AtaDrive, ((d.reply (some t)).ataIoDelay ch).ataPollData ch = (-1, d') ∧
      d'.media = d.media) := by
  have hawaits : (d.reply (some t)).err = (d.reply (some t)).transfer.isNone := by
    show (d.script 0).fault = (if (d.script 0).fault then none else some t).isNone
    cases (d.script 0).fault
    · rfl
    · rfl
  rw [ataIoDelay_eq, ataPollData, ataPollLoop_eq _ (by exact hawaits)]
  by_cases htime : (d.script 0).polls - 4 < 1000000
  · rw [if_pos (by exact htime)]
    cases hfault : (d.script 0).fault with
    | false =>
      left
      refine ⟨fun i hi => ?_, _, congrArg₂ Prod.mk (if_neg ?_) rfl, rfl, rfl, if_neg ?_, rfl⟩
      · rw [Nat.lt_one_iff.mp hi]
        exact ⟨by omega, hfault⟩
      · exact fun herr => Bool.true_eq_false.mp (herr.symm.trans hfault)
      · exact fun herr => Bool.true_eq_false.mp (herr.symm.trans hfault)
    | true =>
      right
      refine ⟨fun hin => Bool.true_eq_false.mp (hfault.symm.trans (hin 0 Nat.one_pos).2), _,
        congrArg₂ Prod.mk (if_pos hfault) rfl, rfl⟩
  · right
    rw [if_neg (by exact htime)]
    refine ⟨fun hin => ?_, _, rfl, rfl⟩
    have hpolls := (hin 0 Nat.one_pos).1
    omega

/-! ### Commands -/

theorem byte_toNat (n : ℕ) : (UInt8.ofNat (n &&& 0xFF)).toNat = n % 256 := by
  have hand : n &&& 0xFF = n % 2 ^ 8 := Nat.and_two_pow_sub_one_eq_mod n 8
  rw [hand, UInt8.toNat_ofNat']
  omega

/-- The registers hold the low 28 bits of the number. -/
theorem lba_ataSetupLba (d : AtaDrive) (s : ℕ) : (d.ataSetupLba ch s).lba = lba28 s := by
  have hregs : (d.ataSetupLba ch s).lba = (UInt8.ofNat (s &&& 0xFF)).toNat +
      2 ^ 8 * (UInt8.ofNat (s >>> 8 &&& 0xFF)).toNat + 2 ^ 16 * (UInt8.ofNat (s >>> 16 &&& 0xFF)).toNat +
      2 ^ 24 * ((UInt8.ofNat (0xE0 ||| (s >>> 24 &&& 0x0F))).toNat % 16) := by
    cases ch
    · rfl
    · rfl
  have hnibble : ∀ n < 16, (UInt8.ofNat (0xE0 ||| n)).toNat % 16 = n := by decide
  have hand : s >>> 24 &&& 0x0F = s / 2 ^ 24 % 16 := by
    rw [Nat.shiftRight_eq_div_pow]
    exact Nat.and_two_pow_sub_one_eq_mod _ 4
  rw [hregs, byte_toNat, byte_toNat, byte_toNat, hand, hnibble _ (Nat.mod_lt _ (by decide)), lba28,
    Nat.shiftRight_eq_div_pow, Nat.shiftRight_eq_div_pow]
  omega

/-- What a driver leaves alone but in the registers of the drive. -/
theorem ataSetupLba_eq (ch : Channel) (d : AtaDrive) (s : ℕ) : ∃ lba0 lba1 lba2 drive,
    d.ataSetupLba ch s =
      { d with seccount := 1, lba0 := lba0, lba1 := lba1, lba2 := lba2, drive := drive } := by
  cases ch
  · exact ⟨_, _, _, _, rfl⟩
  · exact ⟨_, _, _, _, rfl⟩

theorem command_read (d : AtaDrive) (s : ℕ) :
    (d.ataSetupLba ch s).outb ch (ch.base + ATA_REG_COMMAND) ATA_CMD_READ_SECT =
      (d.ataSetupLba ch s).reply (some ⟨true, lba28 s, 1, d.media (lba28 s), 0⟩) := by
  have hcommand : (d.ataSetupLba ch s).outb ch (ch.base + ATA_REG_COMMAND) ATA_CMD_READ_SECT =
      (d.ataSetupLba ch s).reply (some ⟨true, (d.ataSetupLba ch s).lba, 1, d.media (d.ataSetupLba ch s).lba, 0⟩) := by
    cases ch
    · rfl
    · rfl
  rw [hcommand, lba_ataSetupLba]

theorem command_write (d : AtaDrive) (s : ℕ) :
    (d.ataSetupLba ch s).outb ch (ch.base + ATA_REG_COMMAND) ATA_CMD_WRITE_SECT =
      (d.ataSetupLba ch s).reply (some ⟨false, lba28 s, 1, fun _ => 0, 0⟩) := by
  have hcommand : (d.ataSetupLba ch s).outb ch (ch.base + ATA_REG_COMMAND) ATA_CMD_WRITE_SECT =
      (d.ataSetupLba ch s).reply (some ⟨false, (d.ataSetupLba ch s).lba, 1, fun _ => 0, 0⟩) := by
    cases ch
    · rfl
    · rfl
  rw [hcommand, lba_ataSetupLba]

theorem command_flush (d : AtaDrive) :
    d.outb ch (ch.base + ATA_REG_COMMAND) ATA_CMD_CACHE_FLUSH = d.reply none := by
  cases ch
  · rfl
  · rfl

/-! ### The words of a sector -/

theorem inw_data {d : AtaDrive} {t : Transfer} (hbusy : d.busy = 0) (ht : d.transfer = some t) (hto : t.toHost = true) :
    d.inw ch (ch.base + ATA_REG_DATA) = (t.words t.moved, d.sent t) := by
  have hready : ¬(ch.base + ATA_REG_DATA ≠ ch.base + ATA_REG_DATA ∨ d.busy ≠ 0) := by
    rintro (hport | hno)
    · exact hport rfl
    · exact hno hbusy
  rw [inw, if_neg hready, ht]
  exact if_pos hto

theorem outw_data {d : AtaDrive} {t : Transfer} (hbusy : d.busy = 0) (ht : d.transfer = some t) (hto : t.toHost = false)
    (value : UInt16) : d.outw ch (ch.base + ATA_REG_DATA) value = d.received t value := by
  have hready : ¬(ch.base + ATA_REG_DATA ≠ ch.base + ATA_REG_DATA ∨ d.busy ≠ 0) := by
    rintro (hport | hno)
    · exact hport rfl
    · exact hno hbusy
  have hno : ¬t.toHost = true := by
    rw [hto]
    exact Bool.false_ne_true
  rw [outw, if_neg hready, ht]
  exact if_neg hno

/-- The bytes of the words, the low one first. -/
def sectorBytes (w : Words) : Buf := fun j => leByte (w (j / 2)).toNat (j % 2)

/-- One more word behind those that are in the buffer. -/
theorem splice_word (buf : Buf) (off i : ℕ) (w : Words) :
    storeLe (splice buf off (sectorBytes w) (2 * i)) (off + 2 * i) 2 (w i).toNat =
      splice buf off (sectorBytes w) (2 * (i + 1)) := by
  have hbytes : ∀ j < 2, leByte (w i).toNat j = sectorBytes w (2 * i + j) := by
    intro j hj
    rw [sectorBytes, show (2 * i + j) / 2 = i by omega, show (2 * i + j) % 2 = j by omega]
  rw [storeLe, splice_congr hbytes]
  exact splice_append ..

/-- The loop that reads a sector takes all its words. -/
theorem inWords_spec {d : AtaDrive} {lba : ℕ} {w : Words} (hbusy : d.busy = 0)
    (ht : d.transfer = some ⟨true, lba, 1, w, 0⟩) (buf : Buf) (off : ℕ) :
    inWords ch off (buf, d) = (splice buf off (sectorBytes w) 512, { d with transfer := none }) := by
  have hword : ∀ (buf : Buf) (i : ℕ), inWord ch off i (buf, { d with transfer := some ⟨true, lba, 1, w, i⟩ }) =
      (storeLe buf (off + 2 * i) 2 (w i).toNat,
        sent { d with transfer := some ⟨true, lba, 1, w, i⟩ } ⟨true, lba, 1, w, i⟩) := by
    intro buf i
    rw [inWord, inw_data (by exact hbusy) rfl rfl]
  have hsome : ∀ i < 256, forLoop i (inWord ch off) (buf, d) =
      (splice buf off (sectorBytes w) (2 * i), { d with transfer := some ⟨true, lba, 1, w, i⟩ }) := by
    intro i hi
    induction i with
    | zero =>
      rw [forLoop, Nat.mul_zero, splice_nothing, ← ht]
    | succ i ih =>
      rw [forLoop, ih (by omega), hword, splice_word, sent, if_pos (by exact hi)]
  have hlast : inWords ch off (buf, d) = inWord ch off 255 (forLoop 255 (inWord ch off) (buf, d)) := rfl
  rw [hlast, hsome 255 (by decide), hword, splice_word]
  rfl

/-- The words that `block_write` takes from the buffer. -/
def bufferWords (buf : Buf) (off : ℕ) : Words := fun i => le16 buf (off + 2 * i)

/-- The words that are there when the first `i` of them have come. -/
def firstWords (w : Words) (i : ℕ) : Words := fun k => if k < i then w k else 0

theorem firstWords_update (w : Words) (i : ℕ) : Function.update (firstWords w i) i (w i) = firstWords w (i + 1) := by
  funext k
  by_cases hk : k = i
  · rw [hk, Function.update_self]
    exact (if_pos (Nat.lt_succ_self i)).symm
  · rw [Function.update_of_ne hk]
    by_cases hlt : k < i
    · exact (if_pos hlt).trans (if_pos (by omega)).symm
    · exact (if_neg hlt).trans (if_neg (by omega)).symm

/-- The loop that writes a sector gives all its words, and the drive writes them unless it reports a fault. -/
theorem outWords_spec (ch : Channel) {d : AtaDrive} {lba : ℕ} (hbusy : d.busy = 0)
    (ht : d.transfer = some ⟨false, lba, 1, fun _ => 0, 0⟩) (buf : Buf) (off : ℕ) :
    ∃ media : ℕ → Words, outWords ch buf off d = reply { d with media := media } none ∧
      (∀ s, (s = lba → (d.script 0).fault = true) → media s = d.media s) ∧
      ((d.script 0).fault = false → ∀ i < 256, media lba i = bufferWords buf off i) := by
  have hword : ∀ i,
      outWord ch buf off i { d with transfer := some ⟨false, lba, 1, firstWords (bufferWords buf off) i, i⟩ } =
        received { d with transfer := some ⟨false, lba, 1, firstWords (bufferWords buf off) i, i⟩ }
          ⟨false, lba, 1, firstWords (bufferWords buf off) i, i⟩ (bufferWords buf off i) := by
    intro i
    rw [outWord, outw_data (by exact hbusy) rfl rfl, bufferWords]
  have hsome : ∀ i < 256, forLoop i (outWord ch buf off) d =
      { d with transfer := some ⟨false, lba, 1, firstWords (bufferWords buf off) i, i⟩ } := by
    intro i hi
    induction i with
    | zero =>
      rw [forLoop, show firstWords (bufferWords buf off) 0 = fun _ => 0 from rfl, ← ht]
    | succ i ih =>
      rw [forLoop, ih (by omega), hword, received, if_pos (by exact hi), firstWords_update]
  have hlast : outWords ch buf off d = outWord ch buf off 255 (forLoop 255 (outWord ch buf off) d) := rfl
  rw [hlast, hsome 255 (by decide), hword, received, if_neg (by exact Nat.lt_irrefl 256), firstWords_update]
  by_cases hfault : (d.script 0).fault = true
  · refine ⟨d.media, ?_, fun s _ => rfl, fun hno => absurd (hfault.symm.trans hno) Bool.true_eq_false.mp⟩
    rw [if_pos (by exact hfault)]
    rfl
  · refine ⟨Function.update d.media lba (firstWords (bufferWords buf off) 256), ?_,
      fun s hs => Function.update_of_ne (fun h => hfault (hs h)) .., ?_⟩
    · rw [if_neg (by exact hfault)]
      rfl
    · intro _ i hi
      rw [Function.update_self]
      exact if_pos hi

/-! ### Reading sectors -/

/-- The drive gets ready for a first command in time, and takes `n` commands in time and without a fault. -/
def ReadsInTime (d : AtaDrive) (n : ℕ) : Prop := (0 < n → d.busy < 100000) ∧ Prompt d.script n

/-- One sector of `block_read`: it is read, or the call fails. -/
theorem blockReadLoop_succ (ch : Channel) (sectorSize n s off : ℕ) (buf : Buf) (d : AtaDrive) :
    (d.ReadsInTime 1 ∧ ∃ d' : AtaDrive, d'.media = d.media ∧ d'.busy = 0 ∧ d'.script = (fun i => d.script (i + 1)) ∧
      d.blockReadLoop ch sectorSize (n + 1) s off buf = d'.blockReadLoop ch sectorSize n (s + 1) (off + sectorSize)
        (splice buf off (sectorBytes (d.media (lba28 s))) 512)) ∨
    (¬d.ReadsInTime 1 ∧ ∃ d' : AtaDrive, d'.media = d.media ∧
      d.blockReadLoop ch sectorSize (n + 1) s off buf = ((-1, buf), d')) := by
  have hminus : (-1 : ℤ) ≠ 0 := by decide
  rw [blockReadLoop, ataWait_bsy]
  by_cases hready : d.busy < 100000
  · rw [if_pos hready]
    simp only [ne_eq, not_true_eq_false, if_false, command_read]
    obtain ⟨lba0, lba1, lba2, drive, hregs⟩ := ataSetupLba_eq ch { d with busy := 0 } s
    rw [hregs]
    rcases poll_reply ch { d with seccount := 1, lba0, lba1, lba2, drive, busy := 0 }
      ⟨true, lba28 s, 1, d.media (lba28 s), 0⟩ with
      ⟨hprompt, d', hpoll, hmedia, hbusy, htransfer, hscript⟩ | ⟨hprompt, d', hpoll, hmedia⟩
    · left
      refine ⟨⟨fun _ => hready, hprompt⟩, ({ d' with transfer := none }).ataIoDelay ch, ?_, ?_, ?_, ?_⟩
      · rw [ataIoDelay_eq]
        exact hmedia
      · rw [ataIoDelay_eq, hbusy]
      · rw [ataIoDelay_eq]
        exact hscript
      · rw [hpoll]
        refine (if_neg (not_not.mpr rfl)).trans ?_
        rw [inWords_spec hbusy htransfer]
    · right
      refine ⟨fun hin => hprompt hin.2, d', hmedia, ?_⟩
      rw [hpoll]
      exact if_pos hminus
  · rw [if_neg hready]
    exact .inr ⟨fun hin => hready (hin.1 Nat.one_pos), { d with busy := d.busy - 100000 }, rfl, if_pos hminus⟩

theorem prompt_succ (script : ℕ → Reply) (n : ℕ) :
    Prompt script (n + 1) ↔ Prompt script 1 ∧ Prompt (fun i => script (i + 1)) n := by
  constructor
  · intro hall
    exact ⟨fun i hi => hall i (by omega), fun i hi => hall (i + 1) (by omega)⟩
  · rintro ⟨hfirst, hrest⟩ i hi
    cases i with
    | zero => exact hfirst 0 Nat.one_pos
    | succ i => exact hrest i (by omega)

theorem readsInTime_succ {d d' : AtaDrive} (hbusy : d'.busy = 0) (hscript : d'.script = fun i => d.script (i + 1))
    (n : ℕ) : d.ReadsInTime (n + 1) ↔ d.ReadsInTime 1 ∧ d'.ReadsInTime n := by
  rw [ReadsInTime, ReadsInTime, ReadsInTime, prompt_succ, hscript, hbusy]
  constructor
  · rintro ⟨hready, hfirst, hrest⟩
    exact ⟨⟨fun _ => hready (Nat.succ_pos n), hfirst⟩, fun _ => by decide, hrest⟩
  · rintro ⟨⟨hready, hfirst⟩, -, hrest⟩
    exact ⟨fun _ => hready Nat.one_pos, hfirst, hrest⟩

/-- **The loop of `block_read`** reads every sector or fails, and what the drive holds stays. -/
theorem blockReadLoop_spec (ch : Channel) {sectorSize : ℕ} (hsize : 512 ≤ sectorSize) (n s off : ℕ) (buf : Buf)
    (d : AtaDrive) :
    let r := d.blockReadLoop ch sectorSize n s off buf
    r.2.media = d.media ∧ (r.1.1 = 0 ∨ r.1.1 = -1) ∧ (r.1.1 = 0 ↔ d.ReadsInTime n) ∧
      (∀ j, j < off ∨ off + n * sectorSize ≤ j → r.1.2 j = buf j) ∧
      (r.1.1 = 0 → ∀ i < n, ∀ j < 512, r.1.2 (off + i * sectorSize + j) = sectorBytes (d.media (lba28 (s + i))) j) := by
  induction n generalizing s off buf d with
  | zero =>
    refine ⟨rfl, .inl rfl, ⟨fun _ => ⟨fun h => absurd h (by omega), fun i hi => absurd hi (by omega)⟩, fun _ => rfl⟩,
      fun j _ => rfl, fun _ i hi => absurd hi (by omega)⟩
  | succ n ih =>
    rcases blockReadLoop_succ ch sectorSize n s off buf d with
      ⟨hin, d', hmedia, hbusy, hscript, hstep⟩ | ⟨hnot, d', hmedia, hstep⟩
    · rw [hstep]
      obtain ⟨hkeep, hcode, hzero, houtside, hbytes⟩ := ih (s + 1) (off + sectorSize)
        (splice buf off (sectorBytes (d.media (lba28 s))) 512) d'
      have hmul : (n + 1) * sectorSize = n * sectorSize + sectorSize := Nat.succ_mul n sectorSize
      refine ⟨hkeep.trans hmedia, hcode, ?_, fun j hj => ?_, fun hrc i hi j hj => ?_⟩
      · rw [hzero, readsInTime_succ hbusy hscript]
        exact ⟨fun hrest => ⟨hin, hrest⟩, fun hall => hall.2⟩
      · rw [houtside j (by omega), splice_outside (by omega)]
      · cases i with
        | zero =>
          rw [Nat.zero_mul, houtside _ (by omega), Nat.add_zero, Nat.add_zero, splice_inside hj]
        | succ i =>
          have hplace : off + (i + 1) * sectorSize + j = off + sectorSize + i * sectorSize + j := by
            rw [Nat.succ_mul]
            omega
          rw [hplace, hbytes hrc i (by omega) j hj, hmedia, Nat.add_assoc s 1 i, Nat.add_comm 1 i]
    · rw [hstep]
      refine ⟨hmedia, .inr rfl, ⟨fun hrc => ?_, fun hall => ?_⟩, fun j _ => rfl, fun hrc => ?_⟩
      · have hcode : (-1 : ℤ) = 0 := hrc
        exact absurd hcode (by decide)
      · exact absurd ⟨fun _ => hall.1 (Nat.succ_pos n), ((prompt_succ ..).mp hall.2).1⟩ hnot
      · have hcode : (-1 : ℤ) = 0 := hrc
        exact absurd hcode (by decide)

/-! ### Writing sectors -/

/-- The sectors from `s` on of which the drive took the data: those without a fault behind it hold it. -/
structure SectorsWritten (sectorSize s off : ℕ) (buf : Buf) (script : ℕ → Reply) (k : ℕ) (media media' : ℕ → Words) :
    Prop where
  written : ∀ i < k, (script (2 * i + 1)).fault = false → ∀ j < 256,
    media' (s + i) j = bufferWords buf (off + i * sectorSize) j
  kept : ∀ t, (∀ i < k, t = s + i → (script (2 * i + 1)).fault = true) → media' t = media t

/-- The first sector and the others. -/
theorem SectorsWritten.cons {sectorSize s off k : ℕ} {buf : Buf} {script : ℕ → Reply} {media media₁ media' : ℕ → Words}
    (hfirst : SectorsWritten sectorSize s off buf script 1 media media₁)
    (hrest : SectorsWritten sectorSize (s + 1) (off + sectorSize) buf (fun i => script (i + 2)) k media₁ media') :
    SectorsWritten sectorSize s off buf script (k + 1) media media' := by
  constructor
  · intro i hi hfault j hj
    cases i with
    | zero =>
      rw [hrest.kept (s + 0) fun i _ h => absurd h (by omega)]
      exact hfirst.written 0 Nat.one_pos hfault j hj
    | succ i =>
      have hplace : off + (i + 1) * sectorSize = off + sectorSize + i * sectorSize := by
        rw [Nat.succ_mul]
        omega
      rw [hplace, show s + (i + 1) = s + 1 + i by omega]
      exact hrest.written i (by omega) hfault j hj
  · intro t ht
    rw [hrest.kept t fun i hi h => ht (i + 1) (by omega) (by omega)]
    exact hfirst.kept t fun i hi h => ht i (by omega) h

/-- The drive takes the commands and the data of `n` sectors in time, and the commands without a fault. -/
def WritesInTime (d : AtaDrive) (n : ℕ) : Prop :=
  (0 < n → d.busy < 100000) ∧ ∀ i < n, (d.script (2 * i)).polls < 1000004 ∧ (d.script (2 * i)).fault = false ∧
    (d.script (2 * i + 1)).polls < 100004

theorem writesInTime_succ {d d' : AtaDrive} (hbusy : d'.busy = 0) (hscript : d'.script = fun i => d.script (i + 2))
    (n : ℕ) : d.WritesInTime (n + 1) ↔ d.WritesInTime 1 ∧ d'.WritesInTime n := by
  rw [WritesInTime, WritesInTime, WritesInTime, hscript, hbusy]
  constructor
  · rintro ⟨hready, hall⟩
    exact ⟨⟨fun _ => hready (Nat.succ_pos n), fun i hi => hall i (by omega)⟩, fun _ => by decide,
      fun i hi => hall (i + 1) (by omega)⟩
  · rintro ⟨⟨hready, hfirst⟩, -, hrest⟩
    refine ⟨fun _ => hready Nat.one_pos, fun i hi => ?_⟩
    cases i with
    | zero => exact hfirst 0 Nat.one_pos
    | succ i => exact hrest i (by omega)

/-- The data of a sector and the wait behind it. -/
theorem data_sent (ch : Channel) {d : AtaDrive} {lba : ℕ} (hbusy : d.busy = 0)
    (ht : d.transfer = some ⟨false, lba, 1, fun _ => 0, 0⟩) (buf : Buf) (off : ℕ) : ∃ d' : AtaDrive,
      ((d.outWords ch buf off).ataIoDelay ch).ataWait ch ATA_SR_BSY false =
        (if (d.script 0).polls < 100004 then 0 else -1, d') ∧
      ((d.script 0).polls < 100004 → d'.busy = 0) ∧ d'.script = (fun i => d.script (i + 1)) ∧
      (∀ s, (s = lba → (d.script 0).fault = true) → d'.media s = d.media s) ∧
      ((d.script 0).fault = false → ∀ i < 256, d'.media lba i = bufferWords buf off i) := by
  obtain ⟨media, hwords, hkept, hdata⟩ := outWords_spec ch hbusy ht buf off
  rw [hwords, ataIoDelay_eq, ataWait_bsy]
  by_cases htime : (d.script 0).polls < 100004
  · have hsoon : (d.script 0).polls - 4 < 100000 := by omega
    rw [if_pos (by exact hsoon), if_pos htime]
    exact ⟨_, rfl, fun _ => rfl, rfl, hkept, hdata⟩
  · have hlate : ¬(d.script 0).polls - 4 < 100000 := by omega
    rw [if_neg (by exact hlate), if_neg htime]
    exact ⟨_, rfl, fun h => absurd h htime, rfl, hkept, hdata⟩

/-- One sector of `block_write`: the drive has taken it, or the call fails with it or behind it. -/
theorem blockWriteLoop_succ (ch : Channel) (sectorSize n off : ℕ) {s : ℕ} (hs : s < 2 ^ 28) (buf : Buf) (d : AtaDrive) :
    (d.WritesInTime 1 ∧ ∃ d' : AtaDrive, d'.busy = 0 ∧ d'.script = (fun i => d.script (i + 2)) ∧
      SectorsWritten sectorSize s off buf d.script 1 d.media d'.media ∧
      d.blockWriteLoop ch sectorSize buf (n + 1) s off =
        d'.blockWriteLoop ch sectorSize buf n (s + 1) (off + sectorSize)) ∨
    (¬d.WritesInTime 1 ∧ ∃ d' : AtaDrive, ∃ k ≤ 1, SectorsWritten sectorSize s off buf d.script k d.media d'.media ∧
      d.blockWriteLoop ch sectorSize buf (n + 1) s off = (-1, d')) := by
  have hminus : (-1 : ℤ) ≠ 0 := by decide
  have hzero : ¬(0 : ℤ) ≠ 0 := not_not.mpr rfl
  have hnothing : ∀ {media : ℕ → Words}, media = d.media →
      SectorsWritten sectorSize s off buf d.script 0 d.media media := by
    rintro media rfl
    exact ⟨fun i hi => absurd hi (by omega), fun t _ => rfl⟩
  rw [blockWriteLoop, ataWait_bsy]
  by_cases hready : d.busy < 100000
  · rw [if_pos hready]
    simp only [ne_eq, not_true_eq_false, if_false, command_write]
    obtain ⟨lba0, lba1, lba2, drive, hregs⟩ := ataSetupLba_eq ch { d with busy := 0 } s
    rw [hregs]
    rcases poll_reply ch { d with seccount := 1, lba0, lba1, lba2, drive, busy := 0 }
      ⟨false, lba28 s, 1, fun _ => 0, 0⟩ with
      ⟨hprompt, d₁, hpoll, hmedia, hbusy, htransfer, hscript⟩ | ⟨hprompt, d₁, hpoll, hmedia⟩
    · obtain ⟨hpolls, hfault⟩ := hprompt 0 Nat.one_pos
      obtain ⟨d₂, hsent, hidle, hscript₂, hkept, hdata⟩ := data_sent ch hbusy htransfer buf off
      have hlba : lba28 s = s := Nat.mod_eq_of_lt hs
      rw [hmedia, hscript] at hkept
      rw [hscript, hlba] at hdata
      rw [hscript] at hsent hidle hscript₂
      have hwritten : SectorsWritten sectorSize s off buf d.script 1 d.media d₂.media := by
        constructor
        · intro i hi hok j hj
          rw [Nat.lt_one_iff.mp hi] at hok ⊢
          rw [Nat.add_zero, Nat.zero_mul, Nat.add_zero]
          exact hdata hok j hj
        · intro t ht
          exact hkept t fun h => ht 0 Nat.one_pos (h.trans hlba)
      rw [hpoll]
      by_cases htime : (d.script 1).polls < 100004
      · left
        refine ⟨⟨fun _ => hready, fun i hi => ?_⟩, d₂, hidle htime, hscript₂, hwritten, (if_neg hzero).trans ?_⟩
        · rw [Nat.lt_one_iff.mp hi]
          exact ⟨hpolls, hfault, htime⟩
        · rw [hsent.trans (congrArg₂ Prod.mk (if_pos htime) rfl)]
          exact if_neg hzero
      · right
        refine ⟨fun hin => htime (hin.2 0 Nat.one_pos).2.2, d₂, 1, le_rfl, hwritten, (if_neg hzero).trans ?_⟩
        rw [hsent.trans (congrArg₂ Prod.mk (if_neg htime) rfl)]
        exact if_pos hminus
    · right
      refine ⟨fun hin => hprompt fun i hi => ?_, d₁, 0, Nat.zero_le 1, hnothing hmedia, ?_⟩
      · rw [Nat.lt_one_iff.mp hi]
        exact ⟨(hin.2 0 Nat.one_pos).1, (hin.2 0 Nat.one_pos).2.1⟩
      · rw [hpoll]
        exact if_pos hminus
  · rw [if_neg hready]
    exact .inr ⟨fun hin => hready (hin.1 Nat.one_pos), { d with busy := d.busy - 100000 }, 0, Nat.zero_le 1, hnothing rfl,
      if_pos hminus⟩

/-- **The loop of `block_write`** gives the drive every sector or fails. -/
theorem blockWriteLoop_spec (ch : Channel) (sectorSize off : ℕ) {n s : ℕ} (hs : s + n ≤ 2 ^ 28) (buf : Buf) (d : AtaDrive) :
    let r := d.blockWriteLoop ch sectorSize buf n s off
    (r.1 = 0 ∨ r.1 = -1) ∧ (r.1 = 0 ↔ d.WritesInTime n) ∧ (r.1 = 0 → r.2.script = fun i => d.script (i + 2 * n)) ∧
      ∃ k ≤ n, (r.1 = 0 → k = n) ∧ SectorsWritten sectorSize s off buf d.script k d.media r.2.media := by
  induction n generalizing s off d with
  | zero =>
    refine ⟨.inl rfl, ⟨fun _ => ⟨fun h => absurd h (by omega), fun i hi => absurd hi (by omega)⟩, fun _ => rfl⟩,
      fun _ => rfl, 0, le_rfl, fun _ => rfl, fun i hi => absurd hi (by omega), fun t _ => rfl⟩
  | succ n ih =>
    rcases blockWriteLoop_succ ch sectorSize n off (show s < 2 ^ 28 by omega) buf d with
      ⟨hin, d', hbusy, hscript, hfirst, hstep⟩ | ⟨hnot, d', k, hk, hwritten, hstep⟩
    · rw [hstep]
      obtain ⟨hcode, hzero, hend, k, hk, hall, hrest⟩ := ih (off + sectorSize) (show s + 1 + n ≤ 2 ^ 28 by omega) d'
      rw [hscript] at hrest
      refine ⟨hcode, ?_, fun hrc => ?_, k + 1, by omega, fun hrc => congrArg Nat.succ (hall hrc), hfirst.cons hrest⟩
      · rw [hzero, writesInTime_succ hbusy hscript]
        exact ⟨fun hrest => ⟨hin, hrest⟩, fun hall => hall.2⟩
      · rw [hend hrc, hscript]
        funext i
        exact congrArg d.script (by omega)
    · rw [hstep]
      have hcode : ¬(-1 : ℤ) = 0 := by decide
      refine ⟨.inr rfl, ⟨fun hrc => absurd hrc hcode, fun hall => absurd ?_ hnot⟩, fun hrc => absurd hrc hcode, k,
        by omega, fun hrc => absurd hrc hcode, hwritten⟩
      exact ⟨fun _ => hall.1 (Nat.succ_pos n), fun i hi => hall.2 i (by omega)⟩

end

/-- The loops run over the sectors asked for, unless the end of the range wraps. -/
theorem sectors_left {sector count : ℕ} (hwrap : sector + count < 2 ^ 64) : (sector + count) % 2 ^ 64 - sector = count := by
  rw [Nat.mod_eq_of_lt hwrap, Nat.add_sub_cancel_left]

theorem blockRead_eq (ch : Channel) (sectorSize : ℕ) {sector count : ℕ} (hwrap : sector + count < 2 ^ 64) (buffer : Buf)
    (d : AtaDrive) :
    d.blockRead ch sectorSize sector buffer count = d.blockReadLoop ch sectorSize count sector 0 buffer := by
  rw [blockRead, sectors_left hwrap]

/-- **`block_read`** returns 0 exactly if the drive takes every command in time and reports no fault, and the buffer holds
the sectors then; of a sector number the drive sees 28 bits.  What the drive holds never changes. -/
theorem blockRead_delivers (ch : Channel) {sectorSize sector count : ℕ} (hsize : 512 ≤ sectorSize)
    (hwrap : sector + count < 2 ^ 64) (buffer : Buf) (d : AtaDrive) :
    let r := d.blockRead ch sectorSize sector buffer count
    r.2.media = d.media ∧ (r.1.1 = 0 ∨ r.1.1 = -1) ∧ (r.1.1 = 0 ↔ d.ReadsInTime count) ∧
      (∀ j, count * sectorSize ≤ j → r.1.2 j = buffer j) ∧
      (r.1.1 = 0 → ∀ i < count, ∀ j < 512, r.1.2 (i * sectorSize + j) = sectorBytes (d.media (lba28 (sector + i))) j) := by
  rw [blockRead_eq ch sectorSize hwrap]
  obtain ⟨hmedia, hcode, hzero, houtside, hbytes⟩ := blockReadLoop_spec ch hsize count sector 0 buffer d
  refine ⟨hmedia, hcode, hzero, fun j hj => houtside j (by omega), fun hrc i hi j hj => ?_⟩
  have hplace := hbytes hrc i hi j hj
  rw [Nat.zero_add] at hplace
  exact hplace

/-- A drive that is busy for seven readings with everything, and never faults. -/
def calmDrive : AtaDrive :=
  ⟨fun s i => UInt16.ofNat (256 * s + i), 0, 0, 0, 0, 0, 7, false, none, fun _ => ⟨7, false⟩⟩

/-- Two sectors are read, the second one behind the first. -/
theorem blockRead_delivers_calm : (calmDrive.blockRead .primary 512 5 (fun _ => 0) 2).1.1 = 0 ∧
    (calmDrive.blockRead .primary 512 5 (fun _ => 0) 2).1.2 (1 * 512 + 1) = 6 := by
  have hwrap : 5 + 2 < 2 ^ 64 := by decide
  obtain ⟨-, -, hzero, -, hbytes⟩ := blockRead_delivers .primary (le_refl 512) hwrap (fun _ => 0) calmDrive
  have hsoon : 7 < 1000004 := by decide
  have hrc := hzero.mpr ⟨fun _ => by decide, fun _ _ => ⟨hsoon, rfl⟩⟩
  have hbyte : sectorBytes (calmDrive.media (lba28 (5 + 1))) 1 = 6 := by decide
  exact ⟨hrc, (hbytes hrc 1 (by decide) 1 (by decide)).trans hbyte⟩

/-- Behind the loop `block_write` only flushes: it returns 0 exactly if the loop gave the drive all sectors and the flush
ends in time, and the drive holds what the loop left. -/
theorem blockWrite_flush (ch : Channel) (sectorSize : ℕ) {sector count : ℕ} (hrange : sector + count ≤ 2 ^ 28)
    (buffer : Buf) (d : AtaDrive) :
    let r := d.blockWrite ch sectorSize sector buffer count
    let l := d.blockWriteLoop ch sectorSize buffer count sector 0
    (r.1 = 0 ∨ r.1 = -1) ∧ (r.1 = 0 ↔ l.1 = 0 ∧ (d.script (2 * count)).polls < 100000) ∧ r.2.media = l.2.media := by
  have hminus : ¬(-1 : ℤ) = 0 := by decide
  rw [blockWrite, sectors_left (by omega)]
  obtain ⟨-, -, hend, -⟩ := blockWriteLoop_spec ch sectorSize 0 hrange buffer d
  by_cases hrc : (d.blockWriteLoop ch sectorSize buffer count sector 0).1 = 0
  · have hflush : ((d.blockWriteLoop ch sectorSize buffer count sector 0).2.reply none).busy =
        (d.script (2 * count)).polls := by
      show ((d.blockWriteLoop ch sectorSize buffer count sector 0).2.script 0).polls = _
      rw [hend hrc]
      exact congrArg (fun i => (d.script i).polls) (Nat.zero_add _)
    simp only [ne_eq, hrc, not_true_eq_false, if_false, command_flush, ataWait_bsy, hflush]
    by_cases htime : (d.script (2 * count)).polls < 100000
    · simp only [if_pos htime, not_true_eq_false, if_false]
      exact ⟨.inl trivial, ⟨fun _ => ⟨trivial, htime⟩, fun _ => trivial⟩, rfl⟩
    · simp only [if_neg htime, hminus, not_false_eq_true, if_true]
      exact ⟨.inr trivial, ⟨fun h => h.elim, fun h => absurd h.2 htime⟩, rfl⟩
  · simp only [ne_eq, hrc, not_false_eq_true, if_true]
    exact ⟨.inr trivial, ⟨fun h => absurd h hminus, fun h => h.1.elim⟩, trivial⟩

/-- **`block_write`** returns 0 exactly if the drive takes every command, the data of every sector and the flush in time,
and reports no fault before the data.  The drive has taken the data of all sectors then, else of the first few; a sector
with a fault behind its data keeps what it held, and so do all other sectors. -/
theorem blockWrite_writes (ch : Channel) (sectorSize : ℕ) {sector count : ℕ} (hrange : sector + count ≤ 2 ^ 28)
    (buffer : Buf) (d : AtaDrive) :
    let r := d.blockWrite ch sectorSize sector buffer count
    (r.1 = 0 ∨ r.1 = -1) ∧ (r.1 = 0 ↔ d.WritesInTime count ∧ (d.script (2 * count)).polls < 100000) ∧
      ∃ k ≤ count, (r.1 = 0 → k = count) ∧
        SectorsWritten sectorSize sector 0 buffer d.script k d.media r.2.media := by
  obtain ⟨hcode, hzero, hmedia⟩ := blockWrite_flush ch sectorSize hrange buffer d
  obtain ⟨-, hloop, -, k, hk, hall, hwritten⟩ := blockWriteLoop_spec ch sectorSize 0 hrange buffer d
  refine ⟨hcode, hzero.trans (and_congr_left' hloop), k, hk, fun hrc => hall (hzero.mp hrc).1, ?_⟩
  rw [hmedia]
  exact hwritten

/-- A drive that reports a fault behind the data of the first sector it takes. -/
def faultyDrive : AtaDrive := { calmDrive with script := fun i => ⟨7, decide (i = 1)⟩ }

/-- Two sectors are written to it: the call succeeds, the first sector holds what it held, and the second one is written. -/
theorem blockWrite_writes_faulty : (faultyDrive.blockWrite .primary 512 5 (fun _ => 0xAA) 2).1 = 0 ∧
    (faultyDrive.blockWrite .primary 512 5 (fun _ => 0xAA) 2).2.media 5 = faultyDrive.media 5 ∧
    (faultyDrive.blockWrite .primary 512 5 (fun _ => 0xAA) 2).2.media (5 + 1) 0 = 0xAAAA := by
  have hrange : 5 + 2 ≤ 2 ^ 28 := by decide
  obtain ⟨-, hzero, k, -, hall, hwritten⟩ := blockWrite_writes .primary 512 hrange (fun _ => 0xAA) faultyDrive
  have hsoon : 7 < 1000004 ∧ 7 < 100004 ∧ 7 < 100000 := by decide
  have hrc := hzero.mpr ⟨⟨fun _ => by decide, fun i _ => ⟨hsoon.1, decide_eq_false (by omega), hsoon.2.1⟩⟩, hsoon.2.2⟩
  have hword : bufferWords (fun _ => 0xAA) (0 + 1 * 512) 0 = 0xAAAA := by decide
  obtain rfl := hall hrc
  refine ⟨hrc, hwritten.kept 5 fun i _ h => ?_, (hwritten.written 1 (by decide) rfl 0 (by decide)).trans hword⟩
  obtain rfl : i = 0 := by omega
  rfl

/-! ### The transfers of a partition -/

/-- **`block_read` is the loop over a disk** that carries out all commands or fails: the same code, and the sectors
transferred are the ones in the buffer. -/
theorem blockRead_transfer (ch : Channel) {sectorSize sector count : ℕ} (hsize : 512 ≤ sectorSize)
    (hrange : sector + count ≤ 2 ^ 28) (buffer : Buf) (d : AtaDrive) :
    ∃ disk : Disk, (d.blockRead ch sectorSize sector buffer count).1.1 = (ataTransfer disk sector count).1 ∧
      ((ataTransfer disk sector count).1 = 0 → (ataTransfer disk sector count).2 = List.range' sector count ∧
        ∀ i < count, ∀ j < 512, (d.blockRead ch sectorSize sector buffer count).1.2 (i * sectorSize + j) =
          sectorBytes (d.media (sector + i)) j) := by
  rw [blockRead_eq ch sectorSize (by omega)]
  obtain ⟨-, hcode, hzero, -, hbytes⟩ := blockReadLoop_spec ch hsize count sector 0 buffer d
  by_cases hrc : (d.blockReadLoop ch sectorSize count sector 0 buffer).1.1 = 0
  · refine ⟨⟨fun t => decide (t < sector + count)⟩, ?_, fun _ => ⟨?_, fun i hi j hj => ?_⟩⟩
    · rw [hrc, ataTransfer_below _ hrange, if_pos (.inl le_rfl)]
    · rw [ataTransfer_below _ hrange, Nat.add_sub_cancel_left, Nat.min_self]
    · have hplace := hbytes hrc i hi j hj
      rwa [Nat.zero_add, lba28_of_lt (by omega)] at hplace
  · have hpos : count ≠ 0 := by
      rintro rfl
      exact hrc (hzero.mpr ⟨fun h => absurd h (by omega), fun i hi => absurd hi (by omega)⟩)
    have hfail : (ataTransfer ⟨fun t => decide (t < sector)⟩ sector count).1 = -1 := by
      rw [ataTransfer_below _ hrange, if_neg (by omega)]
    refine ⟨⟨fun t => decide (t < sector)⟩, (hcode.resolve_left hrc).trans hfail.symm, fun h => ?_⟩
    rw [hfail] at h
    cases h

/-- **`block_write` is the loop over a disk** that takes the first sectors: what is not transferred keeps what it held, and
a transferred sector without a fault behind it holds its part of the buffer.  A call that returns 0 transferred
everything. -/
theorem blockWrite_transfer (ch : Channel) (sectorSize : ℕ) {sector count : ℕ} (hrange : sector + count ≤ 2 ^ 28)
    (buffer : Buf) (d : AtaDrive) :
    ∃ disk : Disk,
      ((d.blockWrite ch sectorSize sector buffer count).1 = 0 → (ataTransfer disk sector count).1 = 0) ∧
      (∀ t ∉ (ataTransfer disk sector count).2,
        (d.blockWrite ch sectorSize sector buffer count).2.media t = d.media t) ∧
      ∀ i, sector + i ∈ (ataTransfer disk sector count).2 → (d.script (2 * i + 1)).fault = false → ∀ j < 256,
        (d.blockWrite ch sectorSize sector buffer count).2.media (sector + i) j =
          bufferWords buffer (i * sectorSize) j := by
  obtain ⟨-, hzero, hmedia⟩ := blockWrite_flush ch sectorSize hrange buffer d
  obtain ⟨-, -, -, k, hk, hall, hwritten⟩ := blockWriteLoop_spec ch sectorSize 0 hrange buffer d
  rw [← hmedia] at hwritten
  have htouched : (ataTransfer ⟨fun t => decide (t < sector + k)⟩ sector count).2 = List.range' sector k := by
    rw [ataTransfer_below _ hrange, Nat.add_sub_cancel_left, Nat.min_eq_right hk]
  refine ⟨⟨fun t => decide (t < sector + k)⟩, fun hrc => ?_, fun t ht => ?_, fun i hi hfault j hj => ?_⟩
  · rw [ataTransfer_below _ hrange, hall (hzero.mp hrc).1, if_pos (.inl le_rfl)]
  · rw [htouched] at ht
    refine hwritten.kept t fun i hi h => absurd (List.mem_range'.mpr ⟨i, hi, ?_⟩) ht
    rw [h, Nat.one_mul]
  · rw [htouched] at hi
    obtain ⟨i', hi', heq⟩ := List.mem_range'.mp hi
    have hdata := hwritten.written i (by omega) hfault j hj
    rwa [Nat.zero_add] at hdata

end AtaDrive

end LizardOs.Block
