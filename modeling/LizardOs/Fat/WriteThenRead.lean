import LizardOs.Fat.FileWrites

/-!
# Reading back what was written

A write followed by a read, as a program sees the two: the bytes outside the written range, the recorded size, the
written range itself, and the gap that a write behind the end of the file leaves.
-/

namespace LizardOs.Fat

open LizardOs.Lib

variable {fs fs' : Fat16} {c : ℕ} {l l' : List ℕ}

/-! ### Files -/

/-- A regular file with its inode in memory: the chain holds the bytes of the file, the entry records the size, and
the slot of the entry lies in no cluster that a write may touch. -/
structure FileOk (fs : Fat16) (ino : Inode) (l : List ℕ) : Prop where
  regular : isDir ino.ent = false
  owns : fs.Owns ino.ent.cluster l
  size_le : ino.size ≤ fs.capacity l
  recorded : ino.ent.fileSizeBytes.toNat = ino.size
  proper : ino.loc.Proper fs.header
  apart : ∀ b ∈ fs.supply l, ∀ i < fs.header.spc, ino.loc.lba ≠ fs.header.clusterToLba b + i

theorem Inode.written_size (now : DosStamp) (ino : Inode) (offset done : ℕ) :
    (ino.written now offset done).size = max ino.size (offset + done) := by
  unfold Inode.written
  split
  · rw [Nat.max_eq_right (by omega)]
    split <;> rfl
  · rw [Nat.max_eq_left (by omega)]
    split <;> rfl

theorem Inode.written_cluster (now : DosStamp) (ino : Inode) (offset done : ℕ) :
    (ino.written now offset done).ent.cluster = ino.ent.cluster := by
  unfold Inode.written
  split <;> split <;> rfl

/-- The size field of the entry is the size of the file modulo `2^32`, when it was before. -/
theorem Inode.written_recorded (now : DosStamp) {ino : Inode} (h : ino.ent.fileSizeBytes.toNat = ino.size)
    (offset done : ℕ) :
    (ino.written now offset done).ent.fileSizeBytes.toNat = (ino.written now offset done).size % 2 ^ 32 := by
  have hlt := ino.ent.fileSizeBytes.toNat_lt
  unfold Inode.written
  split
  · have hmod : (UInt32.ofNat (offset + done)).toNat = (offset + done) % 2 ^ 32 := UInt32.toNat_ofNat'
    split <;> exact hmod
  · have hmod : ino.ent.fileSizeBytes.toNat = ino.size % 2 ^ 32 := by
      rw [← h, Nat.mod_eq_of_lt hlt]
    split <;> exact hmod

/-- The first clusters of a list hold its first bytes. -/
theorem chainByte_prefix (hs : fs.header.Sound) (l m : List ℕ) {p : ℕ} (hp : p < fs.capacity l) :
    fs.chainByte (l ++ m) p = fs.chainByte l p := by
  have hq : p / fs.header.clusterSize < l.length := by
    rw [Nat.div_lt_iff_lt_mul hs.clusterSize_pos]
    exact hp
  rw [Fat16.chainByte, Fat16.chainByte, List.getElem?_append_left hq]

/-- Rewriting a slot outside the clusters of a list leaves their bytes. -/
theorem chainByte_setEntry (hs : fs.header.Sound) {loc : DirLoc}
    (hout : ∀ b ∈ l, ∀ i < fs.header.spc, loc.lba ≠ fs.header.clusterToLba b + i) (ent : Fat16Directory) :
    (fs.setEntry loc ent).chainByte l = fs.chainByte l := by
  have hcs := hs.clusterSize_eq
  funext p
  unfold Fat16.chainByte
  rw [Fat16.setEntry_header]
  cases hy : l[p / fs.header.clusterSize]? with
  | none => rfl
  | some y =>
    have hr := Nat.mod_lt p hs.clusterSize_pos
    have hsec : p % fs.header.clusterSize / 512 < fs.header.spc := by omega
    have hne := hout y (List.mem_of_getElem? hy) _ hsec
    simp only [Fat16.dataByte, Fat16.setEntry]
    rw [Fat16.setSector_disk_ne hne.symm]

/-! ### The file after a write -/

/-- The volume, the file and its chain after a write that stored something. -/
structure Wrote (fs fs' : Fat16) (ino ino' : Inode) (l l' : List ℕ) (pos n : ℕ) (src : Buf) : Prop where
  header : fs'.header = fs.header
  mounted : fs'.Mounted
  owns : fs'.Owns ino'.ent.cluster l'
  entry : fs'.entryAt ino.loc = ino'.ent
  recorded : ino'.ent.fileSizeBytes.toNat = ino'.size % 2 ^ 32
  longer : ∃ m m', l' = l ++ m ∧ fs.supply l = l' ++ m'
  covered : pos + n ≤ fs.capacity l'
  bytes : ∀ p < fs.capacity l', fs'.chainByte l' p = splice (fs.chainByte (fs.supply l)) pos src n p

theorem Wrote.of_writes {ino : Inode} {pos n : ℕ} {src : Buf} (hfile : FileOk fs ino l)
    (hw : fs.Writes fs' c l l' pos n src) (hcov : pos + n ≤ fs.capacity l') (now : DosStamp) (offset done : ℕ) :
    Wrote fs (fs'.setEntry ino.loc ((ino.withCluster c).written now offset done).ent) ino
      ((ino.withCluster c).written now offset done) l l' pos n src := by
  have hs' : fs'.header.Sound := hw.mounted.sound
  have hproper : ino.loc.Proper fs'.header := by
    rw [hw.header]
    exact hfile.proper
  have hcluster : ((ino.withCluster c).written now offset done).ent.cluster = c := by
    rw [Inode.written_cluster, ino.withCluster_cluster hw.heads.head_lt]
  have hrecorded : (ino.withCluster c).ent.fileSizeBytes.toNat = (ino.withCluster c).size := hfile.recorded
  obtain ⟨m, hl', -⟩ := hw.fresh
  have hsub : ∀ b ∈ l', b ∈ fs.supply l := by
    intro b hb
    rw [Fat16.supply, ← hw.supply]
    exact List.mem_append_left _ hb
  have hout : ∀ b ∈ l', ∀ i < fs'.header.spc, ino.loc.lba ≠ fs'.header.clusterToLba b + i := by
    rw [hw.header]
    exact fun b hb => hfile.apart b (hsub b hb)
  refine ⟨hw.header, Fat16.setEntry_mounted hw.mounted hproper _, ?_, Fat16.setEntry_entryAt_self _ _ _,
    Inode.written_recorded now hrecorded offset done, ⟨m, fs'.freeList, hl', hw.supply.symm⟩, hcov, ?_⟩
  · rw [hcluster]
    right
    exact hw.heads.congr rfl fun b hb => Fat16.setEntry_fatAt hs' hproper _ (hw.heads.inside hb)
  · intro p hp
    rw [chainByte_setEntry hs' hout, ← chainByte_prefix hs' l' fs'.freeList (by rw [capacity_congr hw.header]; exact hp),
      hw.supply, hw.bytes]
    rfl

namespace Wrote

variable {ino ino' : Inode} {pos n : ℕ} {src : Buf}

/-- The old chain is the beginning of the new one. -/
theorem capacity_le (h : Wrote fs fs' ino ino' l l' pos n src) : fs.capacity l ≤ fs.capacity l' := by
  obtain ⟨m, -, rfl, -⟩ := h.longer
  rw [capacity_append]
  exact Nat.le_add_right _ _

theorem capacity_lt (h : Wrote fs fs' ino ino' l l' pos n src) (hs : fs.header.Sound) (hspc : fs.header.spc ≤ 128) :
    fs.capacity l' < 2 ^ 32 := by
  have hlt := h.owns.supply_lt (by rw [h.header]; exact hs) (by rw [h.header]; exact hspc)
  rw [capacity_congr h.header, capacity_append] at hlt
  omega

/-- A byte the write did not touch is the byte the file's clusters or the free ones held before. -/
theorem byte_outside (h : Wrote fs fs' ino ino' l l' pos n src) {p : ℕ} (hp : p < fs.capacity l')
    (hout : p < pos ∨ pos + n ≤ p) : fs'.chainByte l' p = fs.chainByte (fs.supply l) p := by
  rw [h.bytes p hp, splice_outside hout]

theorem byte_inside (h : Wrote fs fs' ino ino' l l' pos n src) {j : ℕ} (hj : j < n) :
    fs'.chainByte l' (pos + j) = src j := by
  have hcov := h.covered
  rw [h.bytes _ (by omega), splice_inside hj]

/-- Reading inside the file after the write. -/
theorem read (h : Wrote fs fs' ino ino' l l' pos n src) (hs : fs.header.Sound) (hspc : fs.header.spc ≤ 128)
    (hsize : ino'.size ≤ fs.capacity l') {offset k : ℕ} (hk : offset + k ≤ ino'.size) (buf : Buf) :
    ∃ buf', fat16Read ino' buf k offset fs' = some (((k : ℤ), buf'), fs') ∧
      ∀ j < k, buf' j = fs'.chainByte l' (offset + j) := by
  have hlt := h.capacity_lt hs hspc
  have hcap := capacity_congr h.header l'
  obtain ⟨r, buf', fs'', k', hrun, hro, hbuf, -, -, hq⟩ := fat16Read_spec (by rw [h.header]; exact hs) h.mounted.cache
    (by rw [h.header]; exact hspc) h.owns (by rw [hcap]; exact hsize) buf (show offset < 2 ^ 63 by omega)
    (show k < 2 ^ 63 by omega)
  obtain ⟨rfl, hk'⟩ := hq h.mounted.noFaults.io
  have hall : k' = k := by
    rw [hk', hcap, readWant]
    split
    · omega
    · rw [if_pos (by omega)]
      omega
  rw [hall, hro.quiet h.mounted.noFaults.io] at hrun
  refine ⟨buf', hrun, fun j hj => ?_⟩
  rw [hbuf, hall, splice_zero hj]

end Wrote

/-! ### Writes land where they were asked to -/

/-- A write that stores `n` bytes changes no other byte of the file, leaves the recorded size equal to the file's, and
is read back. -/
def WriteLands (fs : Fat16) (ino : Inode) (l : List ℕ) (now : DosStamp) (buf : Buf) (count offset : ℕ) : Prop :=
  ∃ r ino' fs', fat16Write now ino buf count offset fs = some ((r, ino'), fs') ∧
    ∀ n : ℕ, 0 < n → r = n →
      (∃ l', fs'.Owns ino'.ent.cluster l' ∧
        ∀ p < ino.size, (p < offset ∨ offset + n ≤ p) → fs'.chainByte l' p = fs.chainByte l p) ∧
      ino'.size = (fs'.entryAt ino.loc).fileSizeBytes.toNat ∧
      ∀ buf₀, ∃ buf₁, fat16Read ino' buf₀ n offset fs' = some ((r, buf₁), fs') ∧ ∀ j < n, buf₁ j = buf j

/-- The offset fits 32 bits, or the write cannot store anything. -/
def WriteInReach (fs : Fat16) (l : List ℕ) (count offset : ℕ) : Prop :=
  offset < 2 ^ 32 ∨ fs.readOnly = true ∨ count = 0 ∨ fs.capacity (fs.supply l) ≤ offset % 2 ^ 32

section WriteLands

variable {ino : Inode} {now : DosStamp} {buf : Buf} {count offset : ℕ}

theorem fat16Write_readOnly (h : fs.readOnly = true) :
    fat16Write now ino buf count offset fs = some ((-1, ino), fs) := by
  unfold fat16Write
  generalize 2 ^ 32 = steps
  simp only [Prog.bind_apply, Prog.get_apply, Prog.obind_some, h, Bool.or_true, if_true, Prog.pure_apply]

theorem fat16Write_nothing (hdir : isDir ino.ent = false) (h : fs.readOnly = false) (hcount : count = 0) :
    fat16Write now ino buf count offset fs = some ((0, ino), fs) := by
  unfold fat16Write
  generalize 2 ^ 32 = steps
  simp only [Prog.bind_apply, Prog.get_apply, Prog.obind_some, hdir, h, Bool.or_self, Bool.false_eq_true, if_false,
    hcount, if_true, Prog.pure_apply]

/-- A call that stores nothing breaks nothing. -/
theorem writeLands_of_failed {r : ℤ} {ino' : Inode} {fs' : Fat16}
    (hrun : fat16Write now ino buf count offset fs = some ((r, ino'), fs')) (hr : r ≤ 0) :
    WriteLands fs ino l now buf count offset := by
  refine ⟨r, ino', fs', hrun, fun n hn hrn => ?_⟩
  omega

/-- A write for which there is no room stores nothing. -/
theorem writeLands_of_full (hm : fs.Mounted) (hspc : fs.header.spc ≤ 128) (hfile : FileOk fs ino l)
    (hro : fs.readOnly = false) (hcount : count ≠ 0) (hfull : fs.capacity (fs.supply l) ≤ offset % 2 ^ 32) :
    WriteLands fs ino l now buf count offset := by
  rcases fat16Write_spec hm hspc hfile.regular hro hfile.owns now buf hcount offset with
    ⟨-, -, hrun⟩ | ⟨-, -, -, hrun⟩ | ⟨hcap, -, -, -⟩
  · exact writeLands_of_failed hrun (by omega)
  · exact writeLands_of_failed hrun (by omega)
  · omega

/-- A write for which there is room stores bytes behind the offset taken modulo `2^32`. -/
theorem fat16Write_room (hm : fs.Mounted) (hspc : fs.header.spc ≤ 128) (hfile : FileOk fs ino l)
    (hro : fs.readOnly = false) (hcount : count ≠ 0) (hcap : offset % 2 ^ 32 < fs.capacity (fs.supply l)) (now : DosStamp)
    (buf : Buf) :
    ∃ (n : ℕ) (ino' : Inode) (fs' : Fat16) (l' : List ℕ), 0 < n ∧
      fat16Write now ino buf count offset fs = some (((n : ℤ), ino'), fs') ∧
      Wrote fs fs' ino ino' l l' (offset % 2 ^ 32) n buf ∧ ino'.size = max ino.size (offset + n) := by
  have hpos : 0 < fs.stored l count offset := by
    unfold Fat16.stored
    omega
  rcases fat16Write_spec hm hspc hfile.regular hro hfile.owns now buf hcount offset with
    ⟨rfl, hfree, -⟩ | ⟨hfull, -, -, -⟩ | ⟨-, hw, hcov, hrun⟩
  · rw [Fat16.supply, hfree, Fat16.capacity] at hcap
    simp only [List.append_nil, List.length_nil, Nat.zero_mul] at hcap
    omega
  · omega
  · exact ⟨_, _, _, _, hpos, hrun, .of_writes hfile hw hcov now offset _, Inode.written_size _ _ _ _⟩

theorem writeLands_of_lt (hm : fs.Mounted) (hspc : fs.header.spc ≤ 128) (hfile : FileOk fs ino l)
    (hro : fs.readOnly = false) (hcount : count ≠ 0) (hoff : offset < 2 ^ 32) :
    WriteLands fs ino l now buf count offset := by
  by_cases hcap : offset % 2 ^ 32 < fs.capacity (fs.supply l)
  · obtain ⟨n, ino', fs', l', -, hrun, hwrote, hsize⟩ := fat16Write_room hm hspc hfile hro hcount hcap now buf
    have hle := hwrote.capacity_le
    have hlt := hwrote.capacity_lt hm.sound hspc
    have hfits := hfile.size_le
    rw [Nat.mod_eq_of_lt hoff] at hwrote
    have hcov := hwrote.covered
    refine ⟨n, ino', fs', hrun, fun k hk hkn => ?_⟩
    obtain rfl : n = k := by exact_mod_cast hkn
    refine ⟨⟨l', hwrote.owns, fun p hp hout => ?_⟩, ?_, fun buf₀ => ?_⟩
    · rw [hwrote.byte_outside (by omega) hout, Fat16.supply, chainByte_prefix hm.sound _ _ (by omega)]
    · rw [hwrote.entry, hwrote.recorded, Nat.mod_eq_of_lt (by omega)]
    · obtain ⟨buf₁, hread, hbytes⟩ := hwrote.read hm.sound hspc (by omega) (show offset + n ≤ ino'.size by omega) buf₀
      exact ⟨buf₁, hread, fun j hj => by rw [hbytes j hj, hwrote.byte_inside hj]⟩
  · exact writeLands_of_full hm hspc hfile hro hcount (Nat.le_of_not_lt hcap)

/-- Behind `2^32` the recorded size is never the size of the file. -/
theorem not_writeLands (hm : fs.Mounted) (hspc : fs.header.spc ≤ 128) (hfile : FileOk fs ino l)
    (h : ¬WriteInReach fs l count offset) : ¬WriteLands fs ino l now buf count offset := by
  simp only [WriteInReach, not_or, Bool.not_eq_true] at h
  obtain ⟨hoff, hro, hcount, hcap⟩ := h
  obtain ⟨n, ino', fs', l', hpos, hrun, hwrote, hsize⟩ :=
    fat16Write_room hm hspc hfile hro hcount (Nat.lt_of_not_le hcap) now buf
  rintro ⟨r, ino'', fs'', hrun', hlands⟩
  rw [hrun] at hrun'
  obtain ⟨⟨rfl, rfl⟩, rfl⟩ := by simpa only [Option.some.injEq, Prod.mk.injEq] using hrun'
  obtain ⟨-, hagree, -⟩ := hlands n hpos rfl
  have hbound := ino'.ent.fileSizeBytes.toNat_lt
  rw [hwrote.entry] at hagree
  omega

/-- **Writes land where they were asked to** exactly when the offset fits 32 bits or nothing can be stored. -/
theorem fat16Write_lands_iff (hm : fs.Mounted) (hspc : fs.header.spc ≤ 128) (hfile : FileOk fs ino l) :
    WriteLands fs ino l now buf count offset ↔ WriteInReach fs l count offset := by
  constructor
  · intro h
    by_contra hcond
    exact not_writeLands hm hspc hfile hcond h
  · intro h
    cases hro : fs.readOnly with
    | true => exact writeLands_of_failed (fat16Write_readOnly hro) (by omega)
    | false =>
      by_cases hcount : count = 0
      · exact writeLands_of_failed (fat16Write_nothing hfile.regular hro hcount) (le_refl 0)
      · by_cases hoff : offset < 2 ^ 32
        · exact writeLands_of_lt hm hspc hfile hro hcount hoff
        · -- nothing fits at the offset taken modulo `2^32`
          have hfull : fs.capacity (fs.supply l) ≤ offset % 2 ^ 32 := by
            rcases h with h | h | h | h
            · exact absurd h hoff
            · rw [hro] at h
              cases h
            · exact absurd h hcount
            · exact h
          exact writeLands_of_full hm hspc hfile hro hcount hfull

end WriteLands

theorem fiveBytes_ok (old : UInt8) : FileOk (fiveBytes old) fiveInode [2] where
  regular := by decide
  owns := fiveBytes_owns old
  size_le := by
    show fiveInode.size ≤ 1 * smallHeader.clusterSize
    decide
  recorded := by decide
  proper := by
    show fiveInode.loc.Proper smallHeader
    exact ⟨by decide, 0, by decide, rfl⟩
  apart := by
    intro b hb i _
    have hmin := (fiveBytes_owns old).supply_min b hb
    have hdata := FatHeader.dataRegion_le_clusterToLba (h := smallHeader) hmin
    have hregion : smallHeader.dataRegionLba = 3 := by decide
    have hlba : fiveInode.loc.lba = 2 := by decide
    show fiveInode.loc.lba ≠ smallHeader.clusterToLba b + i
    omega

theorem fat16Write_lands_iff_fiveBytes : WriteLands (fiveBytes 0x53) fiveInode [2] ⟨0, 0⟩ (fun _ => 0x42) 3 1 :=
  (fat16Write_lands_iff (fiveBytes_mounted _) (by decide) (fiveBytes_ok _)).mpr (.inl (by decide))

/-- One byte written at offset `2^32 + 1` lands on the second byte of the file. -/
theorem not_fat16Write_lands_fiveBytes :
    FileOk (fiveBytes 0x53) fiveInode [2] ∧
      ¬WriteLands (fiveBytes 0x53) fiveInode [2] ⟨0, 0⟩ (fun _ => 0x42) 1 (2 ^ 32 + 1) := by
  refine ⟨fiveBytes_ok _, not_writeLands (fiveBytes_mounted _) (by decide) (fiveBytes_ok _) ?_⟩
  rintro (h | h | h | h)
  · omega
  · cases h
  · cases h
  · revert h
    decide

/-! ### Holes -/

/-- After a write behind the end of the file, the bytes between the old end and the offset read as zeros. -/
def HolesZero (fs : Fat16) (ino : Inode) (now : DosStamp) (buf : Buf) (count offset : ℕ) : Prop :=
  ∃ (n : ℕ) (ino' : Inode) (fs' : Fat16), fat16Write now ino buf count offset fs = some (((n : ℤ), ino'), fs') ∧ 0 < n ∧
    ∀ buf₀, ∃ buf₁, fat16Read ino' buf₀ (offset - ino.size) ino.size fs' =
        some ((((offset - ino.size : ℕ) : ℤ), buf₁), fs') ∧
      ∀ j < offset - ino.size, buf₁ j = 0

section Holes

variable {ino : Inode} {now : DosStamp} {buf : Buf} {count offset : ℕ}

/-- The write behind the end of the file and the read of the gap. -/
theorem holes_read (hm : fs.Mounted) (hspc : fs.header.spc ≤ 128) (hfile : FileOk fs ino l)
    (hro : fs.readOnly = false) (hcount : 0 < count) (hgap : ino.size < offset) (hend : offset + count < 2 ^ 32)
    (hroom : offset + count ≤ fs.capacity (fs.supply l)) (now : DosStamp) (buf : Buf) :
    ∃ (n : ℕ) (ino' : Inode) (fs' : Fat16), fat16Write now ino buf count offset fs = some (((n : ℤ), ino'), fs') ∧
      0 < n ∧ ∀ buf₀, ∃ buf₁, fat16Read ino' buf₀ (offset - ino.size) ino.size fs' =
          some ((((offset - ino.size : ℕ) : ℤ), buf₁), fs') ∧
        ∀ j < offset - ino.size, buf₁ j = fs.chainByte (fs.supply l) (ino.size + j) := by
  have hmod : offset % 2 ^ 32 = offset := Nat.mod_eq_of_lt (by omega)
  have hcap : offset % 2 ^ 32 < fs.capacity (fs.supply l) := by omega
  obtain ⟨n, ino', fs', l', hpos, hrun, hwrote, hsize⟩ :=
    fat16Write_room hm hspc hfile hro (Nat.pos_iff_ne_zero.mp hcount) hcap now buf
  have hle := hwrote.capacity_le
  have hfits := hfile.size_le
  rw [hmod] at hwrote
  have hcov := hwrote.covered
  refine ⟨n, ino', fs', hrun, hpos, fun buf₀ => ?_⟩
  obtain ⟨buf₁, hread, hbytes⟩ := hwrote.read hm.sound hspc (by omega)
    (show ino.size + (offset - ino.size) ≤ ino'.size by omega) buf₀
  refine ⟨buf₁, hread, fun j hj => ?_⟩
  rw [hbytes j hj, hwrote.byte_outside (by omega) (by omega)]

/-- What the hole reads is what its bytes held before. -/
theorem holes_were_zero (hm : fs.Mounted) (hspc : fs.header.spc ≤ 128) (hfile : FileOk fs ino l)
    (hro : fs.readOnly = false) (hcount : 0 < count) (hgap : ino.size < offset) (hend : offset + count < 2 ^ 32)
    (hroom : offset + count ≤ fs.capacity (fs.supply l)) (h : HolesZero fs ino now buf count offset) :
    ∀ p, ino.size ≤ p → p < offset → fs.chainByte (fs.supply l) p = 0 := by
  intro p hp hpo
  obtain ⟨n, ino', fs', hrun, -, hread⟩ := holes_read hm hspc hfile hro hcount hgap hend hroom now buf
  obtain ⟨n', ino'', fs'', hrun', -, hzero⟩ := h
  rw [hrun] at hrun'
  obtain ⟨⟨-, rfl⟩, rfl⟩ := by simpa only [Option.some.injEq, Prod.mk.injEq] using hrun'
  obtain ⟨buf₁, hr, hbytes⟩ := hread fun _ => 0
  obtain ⟨buf₂, hr', hz⟩ := hzero fun _ => 0
  rw [hr] at hr'
  obtain rfl : buf₁ = buf₂ := by simpa only [Option.some.injEq, Prod.mk.injEq, true_and, and_true] using hr'
  have hj : p - ino.size < offset - ino.size := by omega
  have hbyte := hbytes _ hj
  rw [hz _ hj, show ino.size + (p - ino.size) = p by omega] at hbyte
  exact hbyte.symm

/-- **Holes read as zeros** exactly when the slack of the file's clusters and the free clusters that become part of the
file held zeros there before. -/
theorem fat16Write_holes_iff (hm : fs.Mounted) (hspc : fs.header.spc ≤ 128) (hfile : FileOk fs ino l)
    (hro : fs.readOnly = false) (hcount : 0 < count) (hgap : ino.size < offset) (hend : offset + count < 2 ^ 32)
    (hroom : offset + count ≤ fs.capacity (fs.supply l)) :
    HolesZero fs ino now buf count offset ↔
      ∀ p, ino.size ≤ p → p < offset → fs.chainByte (fs.supply l) p = 0 := by
  refine ⟨holes_were_zero hm hspc hfile hro hcount hgap hend hroom, fun hzero => ?_⟩
  obtain ⟨n, ino', fs', hrun, hpos, hread⟩ := holes_read hm hspc hfile hro hcount hgap hend hroom now buf
  refine ⟨n, ino', fs', hrun, hpos, fun buf₀ => ?_⟩
  obtain ⟨buf₁, hr, hbytes⟩ := hread buf₀
  refine ⟨buf₁, hr, fun j hj => ?_⟩
  rw [hbytes j hj, hzero _ (by omega) (by omega)]

end Holes

/-- Old zeros: the hole of a write at offset 7 reads as zeros. -/
theorem fat16Write_holes_iff_zeros : HolesZero (fiveBytes 0) fiveInode ⟨0, 0⟩ (fun _ => 0x42) 1 7 := by
  refine (fat16Write_holes_iff (fiveBytes_mounted _) (by decide) (fiveBytes_ok _) rfl (by decide) (by decide) (by decide)
    (by decide)).mpr fun p hp hpo => ?_
  have hcases : p = 5 ∨ p = 6 := by
    have hsize : fiveInode.size = 5 := by decide
    omega
  rcases hcases with rfl | rfl <;> decide

/-- Old data: the same write lets the program read them. -/
theorem not_fat16Write_holes_slack :
    FileOk (fiveBytes 0x53) fiveInode [2] ∧ ¬HolesZero (fiveBytes 0x53) fiveInode ⟨0, 0⟩ (fun _ => 0x42) 1 7 := by
  refine ⟨fiveBytes_ok _, fun h => ?_⟩
  have hzero := holes_were_zero (fiveBytes_mounted _) (by decide) (fiveBytes_ok _) rfl (by decide) (by decide) (by decide)
    (by decide) h 5 (by decide) (by decide)
  revert hzero
  decide

end LizardOs.Fat
