import LizardOs.Lib.Bytes
import LizardOs.Lib.Steps
import Mathlib.Logic.Function.Basic

/-!
# The write-through sector cache

`blk_dev.c` keeps 64 lines of one 512-byte sector each in front of every block device.  Only transfers of one
sector of a device with 512-byte sectors go through the lines; all others talk to the device alone, and a
write drops the lines it overlaps.

A device is an array of sectors that nobody else writes to, and each call carries the answer of its driver.
The invariant `Coherent` says that no two valid lines hold the same sector and that every valid line holds
what the device holds; from it, a read that answers 0 delivers the contents of the device.
-/

namespace LizardOs.Block

open LizardOs.Lib

def BCACHE_LINES : ℕ := 64
def BCACHE_SECTOR_SIZE : ℕ := 512

/-- The fields of `struct block_dev` that the cache looks at. -/
structure BlockDev where
  sectorSize : ℕ
  hasRead : Bool
  hasWrite : Bool

/-- The bytes of a sector: a device that does not say has sectors of 512 bytes. -/
def BlockDev.width (d : BlockDev) : ℕ :=
  if d.sectorSize = 0 then BCACHE_SECTOR_SIZE else d.sectorSize

/-- `struct bcache_line`; the device is a pointer that is `NULL` at first. -/
structure BcacheLine (δ : Type) where
  dev : Option δ
  sector : ℕ
  lru : ℕ
  valid : Bool
  data : Buf

/-- The static cache and the contents of every device. -/
structure BlockLayer (δ : Type) where
  bcache : Fin BCACHE_LINES → BcacheLine δ
  clock : ℕ
  disk : δ → ℕ → Buf

/-- What a driver answers: its return code, and what a failed read left in the buffer. -/
structure Answer where
  rc : ℤ
  scrap : Buf

variable {δ : Type} [DecidableEq δ]

/-- `bcache_eligible`. -/
def bcacheEligible (d : BlockDev) (count : ℕ) : Bool :=
  decide (count = 1) &&
    (decide (d.sectorSize = 0) || decide (d.sectorSize = BCACHE_SECTOR_SIZE))

/-- The test of `bcache_find` on one line. -/
def BcacheLine.holds (line : BcacheLine δ) (dev : δ) (sector : ℕ) : Bool :=
  line.valid && decide (line.dev = some dev) && decide (line.sector = sector)

namespace BlockLayer

/-- `bcache_find`: the first valid line of the sector. -/
def bcacheFind (b : BlockLayer δ) (dev : δ) (sector : ℕ) : Option (Fin BCACHE_LINES) :=
  (List.finRange BCACHE_LINES).find? fun i => (b.bcache i).holds dev sector

/-- The loop of `bcache_victim`. -/
def victimFrom (b : BlockLayer δ) : List (Fin BCACHE_LINES) → Fin BCACHE_LINES → Fin BCACHE_LINES
  | [], victim => victim
  | i :: is, victim =>
      if (b.bcache i).valid = false then i
      else if (b.bcache i).lru < (b.bcache victim).lru then b.victimFrom is i
      else b.victimFrom is victim

/-- `bcache_victim`: an invalid line other than the first, or the least recently used one. -/
def bcacheVictim (b : BlockLayer δ) : Fin BCACHE_LINES :=
  b.victimFrom (List.finRange BCACHE_LINES).tail ⟨0, by decide⟩

/-- `++bcache_clock`. -/
def tick (b : BlockLayer δ) : ℕ := (b.clock + 1) % 2 ^ 64

/-- `bcache_store`. -/
def bcacheStore (b : BlockLayer δ) (dev : δ) (sector : ℕ) (data : Buf) : BlockLayer δ :=
  let i := (b.bcacheFind dev sector).getD b.bcacheVictim
  { b with
    clock := b.tick
    bcache := Function.update b.bcache i
      { dev := some dev
        sector := sector
        lru := b.tick
        valid := true
        data := splice (b.bcache i).data 0 data BCACHE_SECTOR_SIZE } }

/-- `bcache_invalidate_range`; the end of the range is a 64-bit sum. -/
def bcacheInvalidateRange (b : BlockLayer δ) (dev : δ) (sector count : ℕ) : BlockLayer δ :=
  { b with
    bcache := fun i =>
      let line := b.bcache i
      if line.valid = true ∧ line.dev = some dev ∧ sector ≤ line.sector ∧
          line.sector < (sector + count) % 2 ^ 64 then
        { line with valid := false }
      else line }

/-- The bytes of `count` sectors of a device from `sector` on. -/
def contents (info : δ → BlockDev) (b : BlockLayer δ) (dev : δ) (sector : ℕ) : Buf :=
  fun j => b.disk dev (sector + j / (info dev).width) (j % (info dev).width)

/-- `ops->write` of a driver that succeeds. -/
def writeSectors (info : δ → BlockDev) (b : BlockLayer δ) (dev : δ) (sector count : ℕ)
    (buffer : Buf) : BlockLayer δ :=
  { b with
    disk := fun d s =>
      if d = dev ∧ sector ≤ s ∧ s < sector + count then
        fun j => buffer ((s - sector) * (info dev).width + j)
      else b.disk d s }

/-- `blk_dev_read`: the return code and the caller's buffer. -/
def blkDevRead (info : δ → BlockDev) (b : BlockLayer δ) (dev : Option δ) (sector count : ℕ)
    (buffer : Buf) (ops : Answer) : (ℤ × Buf) × BlockLayer δ :=
  match dev with
  | none => ((-1, buffer), b)
  | some d =>
      if (info d).hasRead = false then ((-1, buffer), b)
      else if bcacheEligible (info d) count = false then
        if ops.rc = 0 then ((0, b.contents info d sector), b) else ((ops.rc, ops.scrap), b)
      else
        match b.bcacheFind d sector with
        | some i =>
            ((0, splice buffer 0 (b.bcache i).data BCACHE_SECTOR_SIZE),
              { b with
                clock := b.tick
                bcache := Function.update b.bcache i { b.bcache i with lru := b.tick } })
        | none =>
            if ops.rc = 0 then
              ((0, b.contents info d sector), b.bcacheStore d sector (b.contents info d sector))
            else ((-1, ops.scrap), b)

/-- `blk_dev_write`: the return code. -/
def blkDevWrite (info : δ → BlockDev) (b : BlockLayer δ) (dev : Option δ) (sector : ℕ)
    (buffer : Buf) (count : ℕ) (ops : Answer) : ℤ × BlockLayer δ :=
  match dev with
  | none => (-1, b)
  | some d =>
      if (info d).hasWrite = false then (-1, b)
      else if ops.rc ≠ 0 then (-1, b)
      else
        let b' := b.writeSectors info d sector count buffer
        if bcacheEligible (info d) count then (0, b'.bcacheStore d sector buffer)
        else (0, b'.bcacheInvalidateRange d sector count)

/-- The cache at boot: every line is zero. -/
def boot (disk : δ → ℕ → Buf) : BlockLayer δ where
  bcache := fun _ => ⟨none, 0, 0, false, fun _ => 0⟩
  clock := 0
  disk := disk

end BlockLayer

/-- A call into the block layer, with the answer its driver would give. -/
inductive BlockCall (δ : Type) where
  | read (dev : Option δ) (sector count : ℕ) (buffer : Buf) (ops : Answer)
  | write (dev : Option δ) (sector : ℕ) (buffer : Buf) (count : ℕ) (ops : Answer)

/-- One call whose sector range does not wrap. -/
def BlockStep (info : δ → BlockDev) (b : BlockLayer δ) (c : BlockCall δ) (b' : BlockLayer δ) :
    Prop :=
  match c with
  | .read dev sector count buffer ops =>
      sector + count < 2 ^ 64 ∧ (b.blkDevRead info dev sector count buffer ops).2 = b'
  | .write dev sector buffer count ops =>
      sector + count < 2 ^ 64 ∧ (b.blkDevWrite info dev sector buffer count ops).2 = b'

/-- The invariant of the cache. -/
structure Coherent (info : δ → BlockDev) (b : BlockLayer δ) : Prop where
  unique : ∀ i j, (b.bcache i).valid = true → (b.bcache j).valid = true →
    (b.bcache i).dev = (b.bcache j).dev → (b.bcache i).sector = (b.bcache j).sector → i = j
  fresh : ∀ i, (b.bcache i).valid = true → ∃ d, (b.bcache i).dev = some d ∧
    (info d).width = BCACHE_SECTOR_SIZE ∧
    ∀ k < BCACHE_SECTOR_SIZE, (b.bcache i).data k = b.disk d (b.bcache i).sector k

section

variable {info : δ → BlockDev} {b : BlockLayer δ} {d : δ} {sector count : ℕ}

theorem holds_iff {line : BcacheLine δ} :
    line.holds d sector = true ↔ line.valid = true ∧ line.dev = some d ∧ line.sector = sector := by
  simp [BcacheLine.holds, and_assoc]

theorem bcacheFind_some {i : Fin BCACHE_LINES} (h : b.bcacheFind d sector = some i) :
    (b.bcache i).valid = true ∧ (b.bcache i).dev = some d ∧ (b.bcache i).sector = sector := by
  have hi : (b.bcache i).holds d sector = true :=
    List.find?_some (p := fun j => (b.bcache j).holds d sector) h
  exact holds_iff.mp hi

theorem bcacheFind_none (h : b.bcacheFind d sector = none) (i : Fin BCACHE_LINES) :
    ¬((b.bcache i).valid = true ∧ (b.bcache i).dev = some d ∧ (b.bcache i).sector = sector) := by
  intro hi
  exact List.find?_eq_none.mp h i (List.mem_finRange i) (holds_iff.mpr hi)

theorem eligible_width {dev : BlockDev} (h : bcacheEligible dev count = true) :
    count = 1 ∧ dev.width = BCACHE_SECTOR_SIZE := by
  simp only [bcacheEligible, Bool.and_eq_true, Bool.or_eq_true, decide_eq_true_eq] at h
  refine ⟨h.1, ?_⟩
  unfold BlockDev.width
  rcases h.2 with hz | hs
  · rw [if_pos hz]
  · rw [hs]
    decide

/-- The line that takes a sector is the only one of that sector. -/
theorem store_line (i : Fin BCACHE_LINES)
    (hi : i ≠ (b.bcacheFind d sector).getD b.bcacheVictim) (hc : Coherent info b)
    (hv : (b.bcache i).valid = true) :
    ¬((b.bcache i).dev = some d ∧ (b.bcache i).sector = sector) := by
  intro ⟨hdev, hsec⟩
  cases hfind : b.bcacheFind d sector with
  | none => exact bcacheFind_none hfind i ⟨hv, hdev, hsec⟩
  | some j =>
    obtain ⟨hv', hdev', hsec'⟩ := bcacheFind_some hfind
    rw [hfind, Option.getD_some] at hi
    exact hi (hc.unique i j hv hv' (hdev.trans hdev'.symm) (hsec.trans hsec'.symm))

/-- **Storing a sector** keeps the cache coherent when every line but those of that sector agrees with the device,
and the data is what the device holds. -/
theorem coherent_store {b' : BlockLayer δ} {data : Buf} (hc : Coherent info b)
    (hcache : b'.bcache = b.bcache) (hwidth : (info d).width = BCACHE_SECTOR_SIZE)
    (hdisk : ∀ e s, ¬(e = d ∧ s = sector) → b'.disk e s = b.disk e s)
    (hdata : ∀ k < BCACHE_SECTOR_SIZE, data k = b'.disk d sector k) :
    Coherent info (b'.bcacheStore d sector data) := by
  have hvictim : ∀ is v, b'.victimFrom is v = b.victimFrom is v := by
    intro is
    induction is with
    | nil => intro v; rfl
    | cons i is ih => intro v; simp only [BlockLayer.victimFrom, hcache, ih]
  have hfind : b'.bcacheFind d sector = b.bcacheFind d sector := by
    simp only [BlockLayer.bcacheFind, hcache]
  have hline : (b'.bcacheFind d sector).getD b'.bcacheVictim =
      (b.bcacheFind d sector).getD b.bcacheVictim := by
    rw [hfind, BlockLayer.bcacheVictim, BlockLayer.bcacheVictim, hvictim]
  set i₀ := (b.bcacheFind d sector).getD b.bcacheVictim with hi₀
  have hself : (b'.bcacheStore d sector data).bcache i₀ =
      { dev := some d, sector := sector, lru := b'.tick, valid := true,
        data := splice (b'.bcache i₀).data 0 data BCACHE_SECTOR_SIZE } := by
    simp only [BlockLayer.bcacheStore, hline, Function.update_self]
  have hother : ∀ i, i ≠ i₀ → (b'.bcacheStore d sector data).bcache i = b.bcache i := by
    intro i hi
    simp only [BlockLayer.bcacheStore, hline, Function.update_of_ne hi, hcache]
  constructor
  · intro i j hvi hvj hdev hsec
    by_cases hi : i = i₀
    · by_cases hj : j = i₀
      · rw [hi, hj]
      · rw [hi, hself, hother j hj] at hdev hsec
        rw [hother j hj] at hvj
        exact absurd ⟨hdev.symm, hsec.symm⟩ (store_line j hj hc hvj)
    · rw [hother i hi] at hvi hdev hsec
      by_cases hj : j = i₀
      · rw [hj, hself] at hdev hsec
        exact absurd ⟨hdev, hsec⟩ (store_line i hi hc hvi)
      · rw [hother j hj] at hvj hdev hsec
        exact hc.unique i j hvi hvj hdev hsec
  · intro i hv
    by_cases hi : i = i₀
    · rw [hi, hself]
      refine ⟨d, rfl, hwidth, fun k hk => ?_⟩
      exact (splice_zero hk).trans (hdata k hk)
    · rw [hother i hi] at hv ⊢
      obtain ⟨e, hdev, hw, hd⟩ := hc.fresh i hv
      refine ⟨e, hdev, hw, fun k hk => ?_⟩
      have hne : ¬(e = d ∧ (b.bcache i).sector = sector) := by
        rintro ⟨rfl, hsec⟩
        exact store_line i hi hc hv ⟨hdev, hsec⟩
      rw [hd k hk]
      show b.disk e _ k = b'.disk e _ k
      rw [hdisk e _ hne]

/-- **A read** keeps the cache coherent. -/
theorem coherent_read (hc : Coherent info b) (dev : Option δ) (sector count : ℕ) (buffer : Buf)
    (ops : Answer) : Coherent info (b.blkDevRead info dev sector count buffer ops).2 := by
  cases dev with
  | none => exact hc
  | some d =>
    unfold BlockLayer.blkDevRead
    by_cases hops : (info d).hasRead = false
    · simp only [if_pos hops]
      exact hc
    simp only [if_neg hops]
    cases hel : bcacheEligible (info d) count with
    | false =>
      simp only [if_true]
      split
      · exact hc
      · exact hc
    | true =>
      simp only [Bool.true_eq_false, if_false]
      obtain ⟨-, hwidth⟩ := eligible_width hel
      cases hfind : b.bcacheFind d sector with
      | some i =>
        -- only the time stamp of the line changes
        have hsame : ∀ j, ∃ n, Function.update b.bcache i { b.bcache i with lru := b.tick } j =
            { b.bcache j with lru := n } := by
          intro j
          by_cases hj : j = i
          · subst hj
            exact ⟨b.tick, Function.update_self _ _ _⟩
          · exact ⟨(b.bcache j).lru, Function.update_of_ne hj _ _⟩
        constructor
        · intro j k hj hk hdev hsec
          obtain ⟨n, hn⟩ := hsame j
          obtain ⟨m, hm⟩ := hsame k
          simp only [hn, hm] at hj hk hdev hsec
          exact hc.unique j k hj hk hdev hsec
        · intro j hj
          obtain ⟨n, hn⟩ := hsame j
          simp only [hn] at hj ⊢
          exact hc.fresh j hj
      | none =>
        simp only
        split
        · apply coherent_store hc rfl hwidth (fun _ _ _ => rfl)
          intro k hk
          rw [BlockLayer.contents, hwidth, Nat.div_eq_of_lt hk, Nat.mod_eq_of_lt hk, Nat.add_zero]
        · exact hc

/-- **A write** keeps the cache coherent. -/
theorem coherent_write (hc : Coherent info b) (dev : Option δ) (buffer : Buf) (ops : Answer)
    (hwrap : sector + count < 2 ^ 64) :
    Coherent info (b.blkDevWrite info dev sector buffer count ops).2 := by
  cases dev with
  | none => exact hc
  | some d =>
    unfold BlockLayer.blkDevWrite
    by_cases hops : (info d).hasWrite = false
    · simp only [if_pos hops]
      exact hc
    simp only [if_neg hops]
    by_cases hrc : ops.rc = 0
    · simp only [hrc, ne_eq, not_true_eq_false, if_false]
      split
      · rename_i hel
        obtain ⟨hcount, hwidth⟩ := eligible_width hel
        subst hcount
        have hcache : (b.writeSectors info d sector 1 buffer).bcache = b.bcache := rfl
        apply coherent_store hc hcache hwidth
        · intro e s hne
          simp only [BlockLayer.writeSectors]
          rw [if_neg]
          intro ⟨he, h1, h2⟩
          exact hne ⟨he, by omega⟩
        · intro k _
          simp only [BlockLayer.writeSectors]
          rw [if_pos ⟨trivial, le_refl _, by omega⟩, Nat.sub_self, Nat.zero_mul, Nat.zero_add]
      · -- the lines of the range are dropped, and the others are not written
        have hline : ∀ i, (((b.writeSectors info d sector count buffer).bcacheInvalidateRange d
            sector count).bcache i).valid = true →
            (((b.writeSectors info d sector count buffer).bcacheInvalidateRange d sector
              count).bcache i) = b.bcache i ∧
            ¬((b.bcache i).dev = some d ∧ sector ≤ (b.bcache i).sector ∧
              (b.bcache i).sector < sector + count) := by
          intro i hv
          simp only [BlockLayer.bcacheInvalidateRange, BlockLayer.writeSectors,
            Nat.mod_eq_of_lt hwrap] at hv ⊢
          split at hv
          · cases hv
          · rename_i hnot
            rw [if_neg hnot]
            exact ⟨rfl, fun hr => hnot ⟨hv, hr⟩⟩
        constructor
        · intro i j hi hj hdev hsec
          obtain ⟨hi', -⟩ := hline i hi
          obtain ⟨hj', -⟩ := hline j hj
          rw [hi'] at hi hdev hsec
          rw [hj'] at hj hdev hsec
          exact hc.unique i j hi hj hdev hsec
        · intro i hv
          obtain ⟨hi, hnot⟩ := hline i hv
          rw [hi] at hv ⊢
          obtain ⟨e, hdev, hw, hd⟩ := hc.fresh i hv
          refine ⟨e, hdev, hw, fun k hk => ?_⟩
          rw [hd k hk]
          show b.disk e _ k = (b.writeSectors info d sector count buffer).disk e _ k
          simp only [BlockLayer.writeSectors]
          rw [if_neg]
          rintro ⟨rfl, hr⟩
          exact hnot ⟨hdev, hr⟩
    · simp only [hrc, ne_eq, not_false_eq_true, if_true]
      exact hc

/-- A read of a coherent cache that answers 0 delivers the contents of the device. -/
theorem read_contents (hc : Coherent info b) (dev : Option δ) (sector count : ℕ) (buffer : Buf)
    (ops : Answer) (hrc : (b.blkDevRead info dev sector count buffer ops).1.1 = 0) :
    ∃ d, dev = some d ∧ ∀ j < count * (info d).width,
      (b.blkDevRead info dev sector count buffer ops).1.2 j = b.contents info d sector j := by
  cases dev with
  | none =>
    have hcode : (-1 : ℤ) = 0 := hrc
    cases hcode
  | some d =>
    refine ⟨d, rfl, ?_⟩
    unfold BlockLayer.blkDevRead at hrc ⊢
    by_cases hops : (info d).hasRead = false
    · simp only [if_pos hops] at hrc
      exact absurd hrc (by decide)
    simp only [if_neg hops] at hrc ⊢
    cases hel : bcacheEligible (info d) count with
    | false =>
      simp only [hel, if_true] at hrc ⊢
      by_cases hzero : ops.rc = 0
      · rw [if_pos hzero]
        exact fun j _ => rfl
      · rw [if_neg hzero] at hrc
        exact absurd hrc hzero
    | true =>
      simp only [hel, Bool.true_eq_false, if_false] at hrc ⊢
      obtain ⟨hcount, hwidth⟩ := eligible_width hel
      subst hcount
      rw [hwidth, Nat.one_mul]
      cases hfind : b.bcacheFind d sector with
      | some i =>
        intro j hj
        obtain ⟨hv, hdev, hsec⟩ := bcacheFind_some hfind
        obtain ⟨e, hdev', -, hd⟩ := hc.fresh i hv
        obtain rfl : d = e := Option.some.inj (hdev.symm.trans hdev')
        show splice buffer 0 (b.bcache i).data BCACHE_SECTOR_SIZE j = _
        rw [splice_zero hj, hd j hj, hsec, BlockLayer.contents, hwidth, Nat.div_eq_of_lt hj,
          Nat.mod_eq_of_lt hj, Nat.add_zero]
      | none =>
        simp only [hfind] at hrc ⊢
        by_cases hzero : ops.rc = 0
        · rw [if_pos hzero]
          exact fun j _ => rfl
        · rw [if_neg hzero] at hrc
          have hcode : (-1 : ℤ) = 0 := hrc
          cases hcode

end

/-- **The cache refines the device.**  After every sequence of reads and writes no two valid lines hold the same
sector, every valid line holds what its device holds, and every read that answers 0 delivers exactly the
contents of the device. -/
theorem bcache_refines_device (info : δ → BlockDev) (disk : δ → ℕ → Buf) {b : BlockLayer δ}
    (h : Reaches (BlockStep info) (BlockLayer.boot disk) b) :
    (∀ i j, (b.bcache i).valid = true → (b.bcache j).valid = true →
      (b.bcache i).dev = (b.bcache j).dev → (b.bcache i).sector = (b.bcache j).sector → i = j) ∧
    (∀ i, (b.bcache i).valid = true → ∃ d, (b.bcache i).dev = some d ∧
      ∀ k < BCACHE_SECTOR_SIZE, (b.bcache i).data k = b.disk d (b.bcache i).sector k) ∧
    ∀ (dev : Option δ) (sector count : ℕ) (buffer : Buf) (ops : Answer),
      (b.blkDevRead info dev sector count buffer ops).1.1 = 0 →
      ∃ d, dev = some d ∧ ∀ j < count * (info d).width,
        (b.blkDevRead info dev sector count buffer ops).1.2 j = b.contents info d sector j := by
  have hc : Coherent info b := by
    apply h.invariant
    · constructor
      · intro i j hi
        cases hi
      · intro i hi
        cases hi
    · intro b c b' hc hstep
      cases c with
      | read dev sector count buffer ops =>
        obtain ⟨-, rfl⟩ := hstep
        exact coherent_read hc dev sector count buffer ops
      | write dev sector buffer count ops =>
        obtain ⟨hwrap, rfl⟩ := hstep
        exact coherent_write hc dev buffer ops hwrap
  refine ⟨hc.unique, fun i hi => ?_, read_contents hc⟩
  obtain ⟨d, hdev, -, hd⟩ := hc.fresh i hi
  exact ⟨d, hdev, hd⟩

/-- Two devices, of 512-byte and of 2048-byte sectors. -/
def twoDevices (d : Bool) : BlockDev := ⟨if d then 2048 else 512, true, true⟩

/-- Sector 7 of the first device after it was written once. -/
theorem bcache_refines_device_written : ∃ b : BlockLayer Bool,
    Reaches (BlockStep twoDevices) (BlockLayer.boot fun _ _ _ => 0) b ∧
      ∀ j < 512, (b.blkDevRead twoDevices (some false) 7 1 (fun _ => 0) ⟨0, fun _ => 0⟩).1.2 j = 0x2A := by
  refine ⟨_, .next (a := .write (some false) 7 (fun _ => 0x2A) 1 ⟨0, fun _ => 0⟩) .start
    ⟨by decide, rfl⟩, fun j hj => ?_⟩
  obtain ⟨-, -, hread⟩ := bcache_refines_device twoDevices (fun _ _ _ => 0)
    (.next (a := .write (some false) 7 (fun _ => 0x2A) 1 ⟨0, fun _ => 0⟩) .start ⟨by decide, rfl⟩)
  obtain ⟨d, hd, hbytes⟩ := hread (some false) 7 1 (fun _ => 0) ⟨0, fun _ => 0⟩ (by decide)
  obtain rfl := Option.some.inj hd
  rw [hbytes j (by simpa [twoDevices, BlockDev.width] using hj)]
  have hw : (twoDevices false).width = 512 := by decide
  simp only [BlockLayer.contents, hw, Nat.div_eq_of_lt hj, Nat.add_zero]
  rfl

end LizardOs.Block
