import LizardOs.Block.Cache

/-!
# Writes that fail half way

A driver that answers an error to a write may have written some of the sectors, as `block_write` of `ata.c` does when a
later sector or the last flush times out.  `blk_dev_write` then returns without looking at the lines, so that a line of a
sector that was written stays behind the device.  As long as no failing write gives such a sector new contents, every read
that succeeds delivers what the device holds (`partialWrite_reads_device`).
-/

namespace LizardOs.Block

open LizardOs.Lib

variable {δ : Type} [DecidableEq δ]

namespace BlockLayer

/-- `ops->write` of a driver that fails after it has written the sectors of `committed`. -/
def commitSectors (info : δ → BlockDev) (b : BlockLayer δ) (dev : δ) (sector count : ℕ) (buffer : Buf)
    (committed : ℕ → Bool) : BlockLayer δ :=
  { b with
    disk := fun d s =>
      if d = dev ∧ sector ≤ s ∧ s < sector + count ∧ committed s = true then
        fun j => buffer ((s - sector) * (info dev).width + j)
      else b.disk d s }

/-- `blk_dev_write` over such a driver. -/
def blkDevWritePartial (info : δ → BlockDev) (b : BlockLayer δ) (dev : Option δ) (sector : ℕ) (buffer : Buf)
    (count : ℕ) (ops : Answer) (committed : ℕ → Bool) : ℤ × BlockLayer δ :=
  match dev with
  | none => (-1, b)
  | some d =>
      if (info d).hasWrite = false then (-1, b)
      else if ops.rc ≠ 0 then (-1, b.commitSectors info d sector count buffer committed)
      else b.blkDevWrite info (some d) sector buffer count ops

/-- Every read that answers 0 delivers what the device holds. -/
def ReadsDevice (info : δ → BlockDev) (b : BlockLayer δ) : Prop :=
  ∀ (dev : Option δ) (sector count : ℕ) (buffer : Buf) (ops : Answer),
    (b.blkDevRead info dev sector count buffer ops).1.1 = 0 →
    ∃ d, dev = some d ∧ ∀ j < count * (info d).width,
      (b.blkDevRead info dev sector count buffer ops).1.2 j = b.contents info d sector j

end BlockLayer

/-- A call into the block layer, with the answer of its driver and the sectors a failing write has written. -/
inductive PartialCall (δ : Type) where
  | read (dev : Option δ) (sector count : ℕ) (buffer : Buf) (ops : Answer)
  | write (dev : Option δ) (sector : ℕ) (buffer : Buf) (count : ℕ) (ops : Answer) (committed : ℕ → Bool)

/-- The block layer after a call. -/
def PartialCall.after (info : δ → BlockDev) (b : BlockLayer δ) : PartialCall δ → BlockLayer δ
  | .read dev sector count buffer ops => (b.blkDevRead info dev sector count buffer ops).2
  | .write dev sector buffer count ops committed =>
      (b.blkDevWritePartial info dev sector buffer count ops committed).2

/-- One call. -/
def PartialStep (info : δ → BlockDev) (b : BlockLayer δ) (c : PartialCall δ) (b' : BlockLayer δ) : Prop :=
  c.after info b = b'

/-- The sectors of a write do not wrap, and a failing one gives no sector that a valid line holds contents other than
those of the line. -/
def PartialCall.Harmless (b : BlockLayer δ) : PartialCall δ → Prop
  | .read _ _ _ _ _ => True
  | .write dev sector buffer count ops committed =>
      sector + count < 2 ^ 64 ∧
      (ops.rc ≠ 0 → ∀ i, (b.bcache i).valid = true → (b.bcache i).dev = dev → sector ≤ (b.bcache i).sector →
        (b.bcache i).sector < sector + count → committed (b.bcache i).sector = true →
        ∀ k < BCACHE_SECTOR_SIZE,
          buffer (((b.bcache i).sector - sector) * BCACHE_SECTOR_SIZE + k) = (b.bcache i).data k)

section

variable {info : δ → BlockDev} {b b' : BlockLayer δ} {c : PartialCall δ}

/-- Without committed sectors a failing write is one that leaves the device alone. -/
theorem blkDevWritePartial_none (info : δ → BlockDev) (b : BlockLayer δ) (dev : Option δ) (sector : ℕ) (buffer : Buf)
    (count : ℕ) (ops : Answer) : b.blkDevWritePartial info dev sector buffer count ops (fun _ => false) =
      b.blkDevWrite info dev sector buffer count ops := by
  cases dev with
  | none => rfl
  | some d =>
    have hsame : ∀ sector, b.commitSectors info d sector count buffer (fun _ => false) = b := by
      intro sector
      simp only [BlockLayer.commitSectors, Bool.false_eq_true, and_false, if_false]
    rw [BlockLayer.blkDevWritePartial, hsame]
    split
    · rename_i hwrite
      rw [BlockLayer.blkDevWrite, if_pos hwrite]
    · rename_i hwrite
      split
      · rename_i hrc
        rw [BlockLayer.blkDevWrite, if_neg hwrite, if_pos hrc]
      · rfl

/-- **A harmless call** keeps the cache coherent. -/
theorem coherent_after (hc : Coherent info b) (hsafe : c.Harmless b) : Coherent info (c.after info b) := by
  cases c with
  | read dev sector count buffer ops => exact coherent_read hc dev sector count buffer ops
  | write dev sector buffer count ops committed =>
    obtain ⟨hwrap, hlines⟩ := hsafe
    cases dev with
    | none => exact hc
    | some d =>
      rw [PartialCall.after, BlockLayer.blkDevWritePartial]
      by_cases hwrite : (info d).hasWrite = false
      · rw [if_pos hwrite]
        exact hc
      · rw [if_neg hwrite]
        by_cases hrc : ops.rc ≠ 0
        · rw [if_pos hrc]
          refine ⟨hc.unique, fun i hv => ?_⟩
          obtain ⟨e, hdev, hwidth, hdata⟩ := hc.fresh i hv
          refine ⟨e, hdev, hwidth, fun k hk => ?_⟩
          show (b.bcache i).data k = (b.commitSectors info d sector count buffer committed).disk e (b.bcache i).sector k
          rw [BlockLayer.commitSectors]
          by_cases hhit : e = d ∧ sector ≤ (b.bcache i).sector ∧ (b.bcache i).sector < sector + count ∧
              committed (b.bcache i).sector = true
          · obtain ⟨rfl, hlow, hhigh, hcommitted⟩ := hhit
            simp only [hlow, hhigh, hcommitted, and_self, if_true, hwidth]
            exact (hlines hrc i hv hdev hlow hhigh hcommitted k hk).symm
          · simp only [if_neg hhit]
            exact hdata k hk
        · rw [if_neg hrc]
          exact coherent_write hc (some d) buffer ops hwrap

/-- **Failing writes and the lines.**  In every run from boot in which no write wraps and no failing one gives a sector
that a valid line holds other contents, every read that answers 0 delivers what the device holds, in each state that is
reached. -/
theorem partialWrite_reads_device {disk : δ → ℕ → Buf} {l : List (BlockLayer δ × PartialCall δ)}
    (hrun : Trace (PartialStep info) (BlockLayer.boot disk) l b) (hsafe : ∀ x ∈ l, x.2.Harmless x.1) :
    b.ReadsDevice info := by
  have hboot : Coherent info (BlockLayer.boot disk) := by
    constructor
    · intro i j hi
      cases hi
    · intro i hi
      cases hi
  have hc : Coherent info b := by
    refine hrun.invariant hboot fun x hx s₂ hinv hstep => ?_
    have hafter : x.2.after info x.1 = s₂ := hstep
    rw [← hafter]
    exact coherent_after hinv (hsafe x hx)
  exact read_contents hc

end

/-- Sector 7 of `twoDevices` holds 0x2A, and so does a line. -/
def storedLayer : BlockLayer Bool :=
  (PartialCall.write (some false) 7 (fun _ => 0x2A) 1 ⟨0, fun _ => 0⟩ fun _ => false).after twoDevices
    (BlockLayer.boot fun _ _ _ => 0)

/-- A write of the sector that fails after the driver has written it. -/
def tornWrite : PartialCall Bool := .write (some false) 7 (fun _ => 0x2B) 1 ⟨-1, fun _ => 0⟩ fun _ => true

theorem storedLayer_trace :
    Trace (PartialStep twoDevices) (BlockLayer.boot fun _ _ _ => 0)
      [(BlockLayer.boot fun _ _ _ => 0, .write (some false) 7 (fun _ => 0x2A) 1 ⟨0, fun _ => 0⟩ fun _ => false)]
      storedLayer :=
  .snoc (l := []) .nil rfl

/-- After the failing write the line is still read, with what the device held before. -/
theorem not_partialWrite_reads_device_torn : ¬ ∀ (l : List (BlockLayer Bool × PartialCall Bool)) (b : BlockLayer Bool),
    Trace (PartialStep twoDevices) (BlockLayer.boot fun _ _ _ => 0) l b → b.ReadsDevice twoDevices := by
  intro h
  have hread := h _ (tornWrite.after twoDevices storedLayer) (.snoc storedLayer_trace rfl) (some false) 7 1
    (fun _ => 0) ⟨0, fun _ => 0⟩ (by decide)
  obtain ⟨d, hd, hbytes⟩ := hread
  obtain rfl := Option.some.inj hd
  have hfirst := hbytes 0 (by decide)
  exact absurd hfirst (by decide)

/-- A failing write that has written nothing is harmless, and the read that follows is right. -/
theorem partialWrite_reads_device_untouched :
    ((PartialCall.write (some false) 7 (fun _ => 0x2B) 1 ⟨-1, fun _ => 0⟩ fun _ => false).after twoDevices
      storedLayer).ReadsDevice twoDevices := by
  refine partialWrite_reads_device (.snoc storedLayer_trace rfl) fun x hx => ?_
  rcases List.mem_append.mp hx with hx | hx
  · rw [List.mem_singleton.mp hx]
    exact ⟨by decide, fun h => absurd rfl h⟩
  · rw [List.mem_singleton.mp hx]
    exact ⟨by decide, fun _ i _ _ _ _ h => by cases h⟩

end LizardOs.Block
