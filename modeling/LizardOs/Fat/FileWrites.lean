import LizardOs.Fat.DirOps
import LizardOs.Fat.FileBytes

/-!
# What a write stores, and where

The write loops in a run without faults.  The file's clusters followed by the free clusters in the allocator's order
are a list that no step of `fat16_write` changes: a step only moves the border between the two.  Along this list the
whole call is one copy: from the offset (taken modulo `2^32`) on, as many bytes as were asked for or as fit
(`fat16Write_spec`).
-/

namespace LizardOs.Fat

open LizardOs.Lib

variable {fs fs' : Fat16} {c x : ℕ} {l l' : List ℕ}

/-! ### The sector loop -/

theorem dataByte_rest (fs : Fat16) (lba : ℕ) : fs.dataByte (lba + 1) = fun a => fs.dataByte lba (512 + a) := by
  funext a
  exact dataByte_succ fs lba a

/-- The bytes of consecutive sectors are those of the first one and those of the rest. -/
theorem dataByte_eq_of_parts {lba : ℕ} {g : Buf} (h1 : ∀ a < 512, fs.disk lba a = g a)
    (h2 : ∀ a, fs.dataByte (lba + 1) a = g (512 + a)) : fs.dataByte lba = g := by
  funext a
  by_cases ha : a < 512
  · rw [dataByte_of_lt _ _ ha, h1 a ha]
  · obtain ⟨b, rfl⟩ : ∃ b, a = 512 + b := ⟨a - 512, by omega⟩
    rw [← dataByte_succ, h2 b]

/-- The sector after its chunk, byte by byte. -/
theorem chunkSector_apply {count : ℕ} {t : Transfer} {old : Buf} {chunk a : ℕ} (hc : chunkOf 512 count t = chunk)
    (ha : a < 512) :
    chunkSector 512 count t old a = splice old t.skip (fun j => t.buf (t.done + j)) chunk a := by
  unfold chunkSector
  rw [hc]
  split
  · rfl
  · rename_i hwhole
    have hskip : t.skip = 0 ∧ chunk = 512 := by
      constructor
      · by_contra h
        exact hwhole (.inl h)
      · by_contra h
        exact hwhole (.inr h)
    rw [hskip.1, hskip.2, splice_zero ha, splice_zero ha]

/-- **The sector loop of `fat16_write`** stores consecutive bytes. -/
theorem writeSectors_bytes (count n : ℕ) : ∀ {fs : Fat16} (lba : ℕ) (t : Transfer), fs.NoFaults → t.failed = false →
    t.done + min (count - t.done) (n * 512 - t.skip) < 2 ^ 32 →
    ∃ t' fs', writeSectors 512 count n lba t fs = some (t', fs') ∧
      t'.done = t.done + min (count - t.done) (n * 512 - t.skip) ∧ t'.buf = t.buf ∧
      (t.done < count ∨ t.skip = 0 → t'.skip = t.skip - n * 512) ∧
      fs'.dataByte lba = splice (fs.dataByte lba) t.skip (fun j => t.buf (t.done + j))
        (min (count - t.done) (n * 512 - t.skip)) := by
  induction n with
  | zero =>
    intro fs lba t _ _ _
    refine ⟨t, fs, rfl, by omega, rfl, fun _ => by omega, ?_⟩
    rw [show min (count - t.done) (0 * 512 - t.skip) = 0 by omega, splice_nothing]
  | succ n ih =>
    intro fs lba t hf ht hk
    by_cases hdone : t.done < count
    · by_cases hskip : 512 ≤ t.skip
      · obtain ⟨a, ha⟩ : ∃ a, t.skip = 512 + a := ⟨t.skip - 512, by omega⟩
        have hrem : (n + 1) * 512 - t.skip = n * 512 - a := by omega
        rw [hrem] at hk ⊢
        obtain ⟨t', fs', hrun, hdone', hbuf, hlast, hbytes⟩ := ih (lba + 1) { t with skip := a } hf ht hk
        obtain ⟨t'', fs'', hrun', -, hframe⟩ := writeSectors_frame 512 count n (lba + 1) { t with skip := a } hf ht
        rw [hrun] at hrun'
        obtain ⟨rfl, rfl⟩ := Prod.mk.inj (Option.some.inj hrun')
        refine ⟨t', fs', ?_, hdone', hbuf, fun h => ?_, ?_⟩
        · simp only [writeSectors, hdone, hskip, if_true, show t.skip - 512 = a by omega]
          exact hrun
        · have hlast' : t'.skip = a - n * 512 := hlast (.inl hdone)
          omega
        · apply dataByte_eq_of_parts
          · intro b hb
            rw [splice_outside (by omega), dataByte_of_lt _ _ hb, hframe.disk _ (by omega)]
          · intro b
            rw [hbytes, ha, splice_shift, dataByte_rest]
      · -- one chunk into this sector, the rest into the sectors behind it
        obtain ⟨chunk, hc⟩ : ∃ chunk, min (count - t.done) (512 - t.skip) = chunk := ⟨_, rfl⟩
        have hchunk : chunkOf 512 count t = chunk := (chunk_eq count t.done t.skip).trans hc
        have hsum := chunk_add_rest n (Nat.lt_of_not_le hskip) hc
        have hfits := chunk_fits (Nat.lt_of_not_le hskip) hc
        have hwrap : (t.done + chunk) % 2 ^ 32 = t.done + chunk := Nat.mod_eq_of_lt (by omega)
        have hnext : chunkNext 512 count t = { t with skip := 0, done := t.done + chunk } := by
          rw [chunkNext, hchunk, hwrap]
        have hk' : t.done + chunk + min (count - (t.done + chunk)) (n * 512 - 0) < 2 ^ 32 := by
          rw [Nat.add_assoc, hsum]
          exact hk
        generalize hfs1 : fs.setSector lba (chunkSector 512 count t (fs.disk lba)) = fs1
        have hf1 : fs1.NoFaults := by
          rw [← hfs1]
          exact Fat16.setSector_noFaults hf _ _
        have hstep : writeSectors 512 count (n + 1) lba t fs = _ := writeSectors_step hf hdone hskip
        rw [hnext, hfs1] at hstep
        obtain ⟨t', fs', hrun, hdone', hbuf, hlast, hbytes⟩ :=
          ih (lba + 1) { t with skip := 0, done := t.done + chunk } hf1 ht hk'
        obtain ⟨t'', fs'', hrun', -, hframe⟩ :=
          writeSectors_frame 512 count n (lba + 1) { t with skip := 0, done := t.done + chunk } hf1 ht
        rw [hrun] at hrun'
        obtain ⟨rfl, rfl⟩ := Prod.mk.inj (Option.some.inj hrun')
        refine ⟨t', fs', hstep.trans hrun, ?_, hbuf, fun _ => ?_, ?_⟩
        · rw [hdone', ← hsum, ← Nat.add_assoc]
        · have hlast' : t'.skip = 0 - n * 512 := hlast (.inr rfl)
          rw [hlast', Nat.zero_sub, Nat.sub_eq_zero_of_le (by omega)]
        · rw [← hsum]
          have hend := chunk_rest_or_full n (Nat.lt_of_not_le hskip) hc
          generalize min (count - (t.done + chunk)) (n * 512 - 0) = k2 at hbytes hend
          have hrest : fs1.dataByte (lba + 1) =
              fun i => splice (fs.dataByte lba) t.skip (fun j => t.buf (t.done + j)) chunk (512 + i) := by
            funext i
            have hout : t.skip + chunk ≤ 512 + i := Nat.le_trans hfits (Nat.le_add_right 512 i)
            rw [splice_outside (.inr hout), ← dataByte_succ, ← hfs1, Fat16.dataByte,
              Fat16.setSector_disk_ne (by omega)]
            rfl
          rw [← splice_append]
          apply dataByte_eq_of_parts
          · intro b hb
            rw [hframe.disk _ (by omega), ← hfs1, Fat16.setSector_disk_self, chunkSector_apply hchunk hb]
            refine Eq.trans ?_ (splice_outside (by omega)).symm
            unfold splice
            rw [dataByte_of_lt _ _ hb]
          · intro b
            rw [hbytes, hrest]
            rcases hend with rfl | hend
            · rw [splice_nothing, splice_nothing]
            · rw [hend, show (512 : ℕ) = 512 + 0 from rfl, splice_shift]
              simp only [Nat.add_zero, Nat.add_assoc]
    · refine ⟨t, fs, ?_, by omega, rfl, fun _ => by omega, ?_⟩
      · simp only [writeSectors, hdone, if_false, Prog.pure_apply]
      · rw [show min (count - t.done) ((n + 1) * 512 - t.skip) = 0 by omega, splice_nothing]

/-! ### The bytes along the chain -/

theorem chainByte_pos (hs : fs.header.Sound) (l : List ℕ) (q : ℕ) {r : ℕ} (hr : r < fs.header.clusterSize) :
    fs.chainByte l (q * fs.header.clusterSize + r) =
      l[q]?.elim 0 fun y => fs.dataByte (fs.header.clusterToLba y) r := by
  have hpos := hs.clusterSize_pos
  have hdiv : (q * fs.header.clusterSize + r) / fs.header.clusterSize = q := by
    rw [Nat.add_comm, Nat.add_mul_div_right _ _ hpos, Nat.div_eq_of_lt hr, Nat.zero_add]
  have hmod : (q * fs.header.clusterSize + r) % fs.header.clusterSize = r := by
    rw [Nat.add_comm, Nat.add_mul_mod_self_right, Nat.mod_eq_of_lt hr]
  rw [Fat16.chainByte, hdiv, hmod]
  cases l[q]? <;> rfl

theorem chainByte_at (hs : fs.header.Sound) {q r : ℕ} (h : l[q]? = some x) (hr : r < fs.header.clusterSize) :
    fs.chainByte l (q * fs.header.clusterSize + r) = fs.dataByte (fs.header.clusterToLba x) r := by
  rw [chainByte_pos hs l q hr, h]
  rfl

/-- Bytes written into one cluster of a list show up at its place in the list and nowhere else. -/
theorem chainByte_write (hs : fs.header.Sound) (hnd : l.Nodup) (hmin : ∀ y ∈ l, FAT16_CLUSTER_MIN ≤ y) {i skip k : ℕ}
    {src : Buf} (hx : l[i]? = some x) (hframe : fs.SectorsOnly fs' (fs.header.clusterToLba x) fs.header.spc)
    (hbytes : fs'.dataByte (fs.header.clusterToLba x) = splice (fs.dataByte (fs.header.clusterToLba x)) skip src k)
    (hin : skip + k ≤ fs.header.clusterSize) :
    fs'.chainByte l = splice (fs.chainByte l) (i * fs.header.clusterSize + skip) src k := by
  have hpos := hs.clusterSize_pos
  have hcs := hs.clusterSize_eq
  have hs' : fs'.header.Sound := by
    rw [hframe.header]
    exact hs
  funext p
  obtain ⟨q, r, hr, rfl⟩ : ∃ q r, r < fs.header.clusterSize ∧ p = q * fs.header.clusterSize + r :=
    ⟨p / fs.header.clusterSize, p % fs.header.clusterSize, Nat.mod_lt _ hpos, (Nat.div_add_mod' _ _).symm⟩
  have hr' : r < fs'.header.clusterSize := by
    rw [hframe.header]
    exact hr
  by_cases hqi : q = i
  · subst hqi
    have hleft := chainByte_at hs' hx hr'
    rw [hframe.header, hbytes] at hleft
    rw [hleft, splice_shift]
    unfold splice
    split
    · rfl
    · exact (chainByte_at hs hx hr).symm
  · have hout : q * fs.header.clusterSize + r < i * fs.header.clusterSize + skip ∨
        i * fs.header.clusterSize + skip + k ≤ q * fs.header.clusterSize + r := by
      rcases Nat.lt_or_gt_of_ne hqi with hlt | hlt
      · have := Nat.mul_le_mul_right fs.header.clusterSize (show q + 1 ≤ i by omega)
        rw [Nat.succ_mul] at this
        omega
      · have := Nat.mul_le_mul_right fs.header.clusterSize (show i + 1 ≤ q by omega)
        rw [Nat.succ_mul] at this
        omega
    rw [splice_outside hout]
    cases hy : l[q]? with
    | none =>
      have hleft := chainByte_pos hs' l q hr'
      rw [hframe.header, hy] at hleft
      rw [hleft, chainByte_pos hs l q hr, hy]
      rfl
    | some y =>
      have hyx : y ≠ x := by
        rintro rfl
        have hlen : q < l.length := (List.getElem?_eq_some_iff.mp hy).1
        exact hqi ((List.getElem?_inj hlen hnd).mp (hy.trans hx.symm))
      have hleft := chainByte_at hs' hy hr'
      rw [hframe.header] at hleft
      rw [hleft, chainByte_at hs hy hr, Fat16.dataByte, Fat16.dataByte, hframe.disk]
      rintro ⟨h1, h2⟩
      have hsec : r / 512 < fs.header.spc := by omega
      exact FatHeader.clusterToLba_disjoint (hmin y (List.mem_of_getElem? hy)) (hmin x (List.mem_of_getElem? hx)) hyx
        hsec (show fs.header.clusterToLba y + r / 512 - fs.header.clusterToLba x < fs.header.spc by omega) (by omega)

/-- A chain prolonged by the first free clusters, with `n` bytes of `src` stored from position `pos` on. -/
structure Fat16.Writes (fs fs' : Fat16) (c : ℕ) (l l' : List ℕ) (pos n : ℕ) (src : Buf) : Prop
    extends fs.Extends fs' c l l' where
  supply : l' ++ fs'.freeList = l ++ fs.freeList
  bytes : fs'.chainByte (l ++ fs.freeList) = splice (fs.chainByte (l ++ fs.freeList)) pos src n

theorem Fat16.freeList_congr (hh : fs'.header = fs.header)
    (hfat : ∀ b ≤ fs.header.lastCluster, fs'.fatAt b = fs.fatAt b) : fs'.freeList = fs.freeList := by
  unfold freeList
  rw [hh]
  apply List.filter_congr
  intro b hb
  have hin : b ≤ fs.header.lastCluster := by
    have := List.mem_range'_1.mp hb
    omega
  rw [hfat b hin]

/-- The clusters of a chain and the free ones are all different. -/
theorem Fat16.Owns.supply_nodup (h : fs.Owns c l) : (l ++ fs.freeList).Nodup := by
  rw [List.nodup_append]
  refine ⟨?_, fs.freeList_nodup, ?_⟩
  · rcases h with ⟨-, rfl⟩ | h
    · exact List.nodup_nil
    · exact h.nodup
  · rintro a ha b hb rfl
    exact h.ne_free ha (mem_freeList.mp hb).2.2

theorem Fat16.Owns.supply_min (h : fs.Owns c l) : ∀ y ∈ l ++ fs.freeList, FAT16_CLUSTER_MIN ≤ y := by
  intro y hy
  rcases List.mem_append.mp hy with hy | hy
  · exact h.min_le hy
  · exact (mem_freeList.mp hy).1

theorem Fat16.Owns.supply_inside (h : fs.Owns c l) : ∀ y ∈ l ++ fs.freeList, y ≤ fs.header.lastCluster := by
  intro y hy
  rcases List.mem_append.mp hy with hy | hy
  · exact h.inside hy
  · exact (mem_freeList.mp hy).2.1

/-- The file's clusters and the free ones hold less than `2^32` bytes. -/
theorem Fat16.Owns.supply_lt (h : fs.Owns c l) (hs : fs.header.Sound) (hspc : fs.header.spc ≤ 128) :
    fs.capacity (l ++ fs.freeList) < 2 ^ 32 :=
  Fat.capacity_lt hs hspc h.supply_nodup h.supply_min h.supply_inside

/-- The bytes of a list depend on the data sectors only. -/
theorem chainByte_congr (hh : fs'.header = fs.header) (hmin : ∀ y ∈ l, FAT16_CLUSTER_MIN ≤ y)
    (hdisk : ∀ lba, fs.header.rootDirLba ≤ lba → fs'.disk lba = fs.disk lba) : fs'.chainByte l = fs.chainByte l := by
  funext p
  unfold Fat16.chainByte
  rw [hh]
  cases hy : l[p / fs.header.clusterSize]? with
  | none => rfl
  | some y =>
    have hroot := FatHeader.rootDir_le_clusterToLba (h := fs.header) (hmin y (List.mem_of_getElem? hy))
    simp only [Fat16.dataByte]
    rw [hdisk _ (by omega)]

namespace Fat16.Writes

variable {fs'' : Fat16} {l'' : List ℕ} {pos n m : ℕ} {src : Buf}

theorem of_grows (h : fs.Grows fs' c l l') (hmin : ∀ y ∈ l ++ fs.freeList, FAT16_CLUSTER_MIN ≤ y) (pos : ℕ) (src : Buf) :
    fs.Writes fs' c l l' pos 0 src where
  toExtends := h.toExtends
  supply := h.supply
  bytes := by rw [splice_nothing, chainByte_congr h.header hmin h.data]

theorem trans (h : fs.Writes fs' c l l' pos n src)
    (h' : fs'.Writes fs'' c l' l'' (pos + n) m fun j => src (n + j)) : fs.Writes fs'' c l l'' pos (n + m) src where
  toExtends := h.toExtends.trans h'.toExtends
  supply := h'.supply.trans h.supply
  bytes := by
    have hbytes := h'.bytes
    rw [h.supply] at hbytes
    rw [hbytes, h.bytes, splice_append]

end Fat16.Writes

theorem capacity_congr (hh : fs'.header = fs.header) (l : List ℕ) : fs'.capacity l = fs.capacity l := by
  rw [Fat16.capacity, hh]
  rfl

/-- Writing into one cluster of the chain. -/
theorem Fat16.SectorsOnly.toWrites {i skip k : ℕ} {src : Buf} (hm : fs.Mounted) (h : fs.Heads c l) (hx : l[i]? = some x)
    (hframe : fs.SectorsOnly fs' (fs.header.clusterToLba x) fs.header.spc)
    (hbytes : fs'.dataByte (fs.header.clusterToLba x) = splice (fs.dataByte (fs.header.clusterToLba x)) skip src k)
    (hin : skip + k ≤ fs.header.clusterSize) :
    fs.Writes fs' c l l (i * fs.header.clusterSize + skip) k src := by
  have hxl := List.mem_of_getElem? hx
  have hroot := FatHeader.rootDir_le_clusterToLba (h := fs.header) (h.min_le hxl)
  have hown : fs.Owns c l := .inr h
  have hlen : i < l.length := (List.getElem?_eq_some_iff.mp hx).1
  refine ⟨hframe.toExtends hm h hxl, ?_, ?_⟩
  · rw [Fat16.freeList_congr hframe.header fun b hb => hframe.fatAt hm.sound hroot hb]
  · apply chainByte_write hm.sound hown.supply_nodup hown.supply_min _ hframe hbytes hin
    rw [List.getElem?_append_left hlen]
    exact hx

/-- What one cluster takes, and what the clusters behind it can take. -/
theorem chunk_add_behind {want cap pos k₁ k₂ : ℕ} (hwant : k₁ ≤ want) (hcap : pos + k₁ ≤ cap)
    (hk : k₂ = min (want - k₁) (cap - (pos + k₁))) : k₁ + k₂ = min want (cap - pos) := by
  omega

/-- **The data loop of `fat16_write`** stores all bytes, or as many as the chain and the free clusters hold. -/
theorem writeClusters_spec (count n : ℕ) : ∀ {fs : Fat16} {l : List ℕ} {i x : ℕ} (t : Transfer), fs.Mounted →
    fs.Heads c l → l[i]? = some x → t.failed = false → t.skip < fs.header.clusterSize →
    t.done + min (count - t.done) (fs.capacity (l ++ fs.freeList) - (i * fs.header.clusterSize + t.skip)) < 2 ^ 32 →
    CLUSTER_STEPS ≤ i + n →
    ∃ t' fs' l' k, writeClusters count n x t fs = some (t', fs') ∧
      k = min (count - t.done) (fs.capacity (l ++ fs.freeList) - (i * fs.header.clusterSize + t.skip)) ∧
      t'.done = t.done + k ∧
      fs.Writes fs' c l l' (i * fs.header.clusterSize + t.skip) k (fun j => t.buf (t.done + j)) ∧
      i * fs.header.clusterSize + t.skip + k ≤ fs.capacity l' := by
  induction n with
  | zero =>
    intro fs l i x t _ h hx _ _ _ hn
    have h1 := h.length_lt
    have h2 := (List.getElem?_eq_some_iff.mp hx).1
    omega
  | succ n ih =>
    intro fs l i x t hm h hx ht hskip hk hn
    have hs := hm.sound
    have hcs := hs.clusterSize_eq
    have hlen : i < l.length := (List.getElem?_eq_some_iff.mp hx).1
    have hcapl : (i + 1) * fs.header.clusterSize ≤ fs.capacity l := Nat.mul_le_mul_right _ hlen
    rw [Nat.succ_mul] at hcapl
    have hcapL := capacity_append fs l fs.freeList
    by_cases hdone : t.done < count
    · -- the sectors of this cluster
      have hk1 : t.done + min (count - t.done) (fs.header.spc * 512 - t.skip) < 2 ^ 32 := by
        rw [← hcs]
        omega
      obtain ⟨t1, fs1, hrun1, hdone1, hbuf1, hskip1, hbytes1⟩ := writeSectors_bytes count fs.header.spc
        (fs.header.clusterToLba x) t hm.noFaults ht hk1
      obtain ⟨t1', fs1', hrun1', hfail1, hframe1⟩ := writeSectors_frame 512 count fs.header.spc
        (fs.header.clusterToLba x) t hm.noFaults ht
      rw [hrun1] at hrun1'
      obtain ⟨rfl, rfl⟩ := Prod.mk.inj (Option.some.inj hrun1')
      rw [← hcs] at hdone1 hskip1 hbytes1
      have hsec := hrun1
      rw [← hs.bps_eq] at hsec
      obtain ⟨k1, hk1'⟩ : ∃ k1, min (count - t.done) (fs.header.clusterSize - t.skip) = k1 := ⟨_, rfl⟩
      rw [hk1'] at hdone1 hbytes1
      have hskip1' : t1.skip = 0 := by
        rw [hskip1 (.inl hdone)]
        omega
      have hw1 := hframe1.toWrites hm h hx hbytes1 (by omega)
      by_cases hmore : t1.done < count
      · have hk1full : k1 = fs.header.clusterSize - t.skip := by omega
        -- the recursive call, from the state `chain_step` leaves
        have hrec : ∀ {fs2 : Fat16} {l2 : List ℕ} {y : ℕ}, chainStep x fs1 = some (y, fs2) →
            fs1.Grows fs2 c l l2 → l2[i + 1]? = some y →
            ∃ t' fs' l' k, writeClusters count (n + 1) x t fs = some (t', fs') ∧
              k = min (count - t.done) (fs.capacity (l ++ fs.freeList) - (i * fs.header.clusterSize + t.skip)) ∧
              t'.done = t.done + k ∧
              fs.Writes fs' c l l' (i * fs.header.clusterSize + t.skip) k (fun j => t.buf (t.done + j)) ∧
              i * fs.header.clusterSize + t.skip + k ≤ fs.capacity l' := by
          intro fs2 l2 y hstep hgrow hy
          have hy0 : y ≠ 0 := hgrow.heads.ne_zero (List.mem_of_getElem? hy)
          have hheader : fs2.header = fs.header := hgrow.header.trans hw1.header
          have hsupply : l2 ++ fs2.freeList = l ++ fs.freeList := hgrow.supply.trans hw1.supply
          have hpos : (i + 1) * fs.header.clusterSize + 0 = i * fs.header.clusterSize + t.skip + k1 := by
            rw [Nat.succ_mul]
            omega
          obtain ⟨t', fs', l', k2, hrun, hk2, hdone2, hw2, hcov⟩ := ih (i := i + 1) t1 hgrow.mounted hgrow.heads hy hfail1
            (by rw [hskip1', hheader]; exact hs.clusterSize_pos)
            (by rw [hsupply, capacity_congr hheader, hheader, hskip1', hpos]; omega) (by omega)
          rw [hsupply, capacity_congr hheader, hheader, hskip1', hpos] at hk2
          rw [hheader, hskip1', hpos, hbuf1] at hw2
          rw [hheader, hskip1', hpos, capacity_congr hheader] at hcov
          have hw12 := hw1.trans (.of_grows hgrow
            (Fat16.Owns.supply_min (.inr hw1.heads)) _ fun j => t.buf (t.done + (k1 + j)))
          have hcap1 : i * fs.header.clusterSize + t.skip + k1 ≤ fs.capacity (l ++ fs.freeList) := by omega
          have hk : k1 + k2 = min (count - t.done)
              (fs.capacity (l ++ fs.freeList) - (i * fs.header.clusterSize + t.skip)) := by
            rw [hdone1, Nat.sub_add_eq] at hk2
            exact chunk_add_behind (hk1' ▸ Nat.min_le_left _ _) hcap1 hk2
          refine ⟨t', fs', l', k1 + k2, ?_, hk, ?_, hw12.trans ?_, ?_⟩
          · rw [writeClusters_step hdone hsec hfail1 hmore hstep, if_neg hy0]
            exact hrun
          · rw [hdone2, hdone1, Nat.add_assoc]
          · rw [Nat.add_zero]
            have hsrc : (fun j => t.buf (t1.done + j)) = fun j => t.buf (t.done + (k1 + j)) := by
              funext j
              rw [hdone1, Nat.add_assoc]
            rw [← hsrc]
            exact hw2
          · rw [← Nat.add_assoc]
            exact hcov
        rcases chainStep_ok hw1.mounted hw1.heads hx with
          ⟨y, hy, hstep⟩ | ⟨hlast, hfree, hstep⟩ | ⟨hlast, a, hstep, hgrow⟩
        · exact hrec hstep (.refl hw1.mounted hw1.heads) hy
        · have hsupply := hw1.supply
          rw [hfree, List.append_nil] at hsupply
          have hcap : fs.capacity l = (i + 1) * fs.header.clusterSize := by rw [Fat16.capacity, hlast]
          rw [Nat.succ_mul] at hcap
          refine ⟨t1, fs1, l, k1, ?_, ?_, hdone1, hw1, by omega⟩
          · rw [writeClusters_step hdone hsec hfail1 hmore hstep, if_pos rfl]
          · rw [← hsupply]
            omega
        · refine hrec hstep hgrow ?_
          rw [hlast]
          simp
      · exact ⟨t1, fs1, l, k1, writeClusters_last hdone hsec hfail1 hmore, by omega, hdone1, hw1, by omega⟩
    · refine ⟨t, fs, l, 0, writeClusters_done hdone, by omega, rfl, .of_grows (.refl hm h) ?_ _ _, by omega⟩
      exact Fat16.Owns.supply_min (.inr h)

/-! ### The whole write -/

theorem seekPos_of_lt {cs j : ℕ} (hj : (j + 1) * cs < 2 ^ 32) : seekPos cs (cs % 2 ^ 32) j = (j + 1) * cs := by
  rw [seekPos, Nat.mod_add_mod, show cs + j * cs = (j + 1) * cs by ring, Nat.mod_eq_of_lt hj]

/-- The first position behind the offset is that of the offset's cluster: positions wrap at `2^32` at most once, and then
too late to come up again. -/
theorem seekPos_index {cs offset k : ℕ} (hpos : 0 < cs) (hcs : cs ≤ 255 * 512) (hk : k < CLUSTER_STEPS)
    (hover : offset < seekPos cs (cs % 2 ^ 32) k) (hall : ∀ j < k, seekPos cs (cs % 2 ^ 32) j ≤ offset) :
    offset / cs = k := by
  have hend : ∀ j, seekPos cs (cs % 2 ^ 32) j = (j + 1) * cs % 2 ^ 32 := by
    intro j
    rw [seekPos, Nat.mod_add_mod, show cs + j * cs = (j + 1) * cs by ring]
  have hdiv := Nat.div_add_mod' offset cs
  have hmod := Nat.mod_lt offset hpos
  have hbound : (k + 1) * cs ≤ 65536 * (255 * 512) := Nat.mul_le_mul hk hcs
  rw [hend] at hover
  rcases Nat.lt_trichotomy k (offset / cs) with hlt | heq | hgt
  · have hle : (k + 1) * cs ≤ offset / cs * cs := Nat.mul_le_mul_right _ hlt
    rw [Nat.mod_eq_of_lt (by omega)] at hover
    omega
  · exact heq.symm
  · have hprev := hall _ hgt
    have hle : (offset / cs + 1 + 1) * cs ≤ (k + 1) * cs := Nat.mul_le_mul_right _ (by omega)
    rw [hend] at hprev
    rw [Nat.succ_mul, Nat.succ_mul] at hle
    rw [Nat.succ_mul] at hprev
    omega

/-- The positioning loop from the first cluster on. -/
theorem writeSeek_head (hm : fs.Mounted) (h : fs.Heads c l) (offset : ℕ) :
    ∃ r fs' l', writeSeek fs.header.clusterSize offset (2 ^ 32) (fs.header.clusterSize % 2 ^ 32) c fs = some (r, fs') ∧
      fs.Grows fs' c l l' ∧
      ((r = 0 ∧ fs'.freeList = [] ∧ ∃ k, l'.length = k + 1 ∧
          ∀ j ≤ k, seekPos fs.header.clusterSize (fs.header.clusterSize % 2 ^ 32) j ≤ offset) ∨
        ∃ k, l'[k]? = some r ∧ offset < seekPos fs.header.clusterSize (fs.header.clusterSize % 2 ^ 32) k ∧
          ∀ j < k, seekPos fs.header.clusterSize (fs.header.clusterSize % 2 ^ 32) j ≤ offset) := by
  obtain ⟨m, hl⟩ := h.head
  have hget : l[0]? = some c := by rw [hl]; rfl
  have hpos : fs.header.clusterSize % 2 ^ 32 < 2 ^ 32 := Nat.mod_lt _ (by decide)
  have hseek := writeSeek_ok fs.header.clusterSize offset (2 ^ 32) hm h hget hpos (by decide)
  simpa only [Nat.zero_add] using hseek

/-- The positioning loop, with clusters of any size: where it ends on a cluster, that is the cluster of the offset. -/
theorem writeSeek_place (hm : fs.Mounted) (h : fs.Heads c l) (offset : ℕ) :
    ∃ r fs' l', writeSeek fs.header.clusterSize offset (2 ^ 32) (fs.header.clusterSize % 2 ^ 32) c fs = some (r, fs') ∧
      fs.Grows fs' c l l' ∧ (r = 0 ∨ l'[offset / fs.header.clusterSize]? = some r) := by
  have hmax : fs.header.spc < 256 := fs.header.sectorsPerCluster.toNat_lt
  have hcs := hm.sound.clusterSize_eq
  obtain ⟨r, fs', l', hrun, hgrow, hcase⟩ := writeSeek_head hm h offset
  refine ⟨r, fs', l', hrun, hgrow, ?_⟩
  rcases hcase with ⟨hr, -, -⟩ | ⟨k, hk, hover, hall⟩
  · exact .inl hr
  · right
    have hin : k < l'.length := (List.getElem?_eq_some_iff.mp hk).1
    rw [seekPos_index hm.sound.clusterSize_pos (by omega) (hin.trans hgrow.heads.length_lt) hover hall]
    exact hk

/-- **The positioning loop of `fat16_write`** ends on the cluster of the offset, unless the chain and the free clusters
end before it; then all free clusters are linked into the chain. -/
theorem writeSeek_spec (hm : fs.Mounted) (hspc : fs.header.spc ≤ 128) (h : fs.Heads c l) (offset : ℕ) :
    ∃ r fs' l', writeSeek fs.header.clusterSize offset (2 ^ 32) (fs.header.clusterSize % 2 ^ 32) c fs = some (r, fs') ∧
      fs.Grows fs' c l l' ∧
      ((r = 0 ∧ fs.capacity (l ++ fs.freeList) ≤ offset ∧ fs'.freeList = []) ∨
       (offset < fs.capacity (l ++ fs.freeList) ∧ l'[offset / fs.header.clusterSize]? = some r)) := by
  have hpos := hm.sound.clusterSize_pos
  have hlt := Fat16.Owns.supply_lt (.inr h) hm.sound hspc
  obtain ⟨r, fs', l', hrun, hgrow, hcase⟩ := writeSeek_head hm h offset
  refine ⟨r, fs', l', hrun, hgrow, ?_⟩
  have hsupply := hgrow.supply
  rcases hcase with ⟨hr, hfree, k, hlen, hall⟩ | ⟨k, hk, hover, hall⟩
  · left
    rw [hfree, List.append_nil] at hsupply
    have hcap : fs.capacity (l ++ fs.freeList) = (k + 1) * fs.header.clusterSize := by
      rw [← hsupply, Fat16.capacity, hlen]
    have hlast := hall k (le_refl k)
    rw [seekPos_of_lt (by omega)] at hlast
    exact ⟨hr, by omega, hfree⟩
  · right
    have hin : k < l'.length := (List.getElem?_eq_some_iff.mp hk).1
    have hcap : (k + 1) * fs.header.clusterSize ≤ fs.capacity (l ++ fs.freeList) := by
      rw [← hsupply, capacity_append]
      exact le_trans (Nat.mul_le_mul_right _ hin) (Nat.le_add_right _ _)
    rw [seekPos_of_lt (by omega)] at hover
    have hunder : k * fs.header.clusterSize ≤ offset := by
      cases k with
      | zero => omega
      | succ k =>
        have hprev := hall k (by omega)
        have hstep : (k + 1) * fs.header.clusterSize ≤ (k + 1 + 1) * fs.header.clusterSize :=
          Nat.mul_le_mul_right _ (by omega)
        rw [seekPos_of_lt (by omega)] at hprev
        exact hprev
    have hdiv : offset / fs.header.clusterSize = k := by
      rw [Nat.div_eq_iff hpos]
      rw [Nat.succ_mul] at hover
      omega
    exact ⟨by omega, by rw [hdiv]; exact hk⟩

/-- The file's clusters, and behind them the free ones in the order in which they would be taken. -/
def Fat16.supply (fs : Fat16) (l : List ℕ) : List ℕ := l ++ fs.freeList

/-- How many bytes a write stores at an offset: all, or as many as the file's clusters and the free ones hold. -/
def Fat16.stored (fs : Fat16) (l : List ℕ) (count offset : ℕ) : ℕ :=
  min count (fs.capacity (fs.supply l) - offset % 2 ^ 32)

/-- The outcomes of `fat16_write`, called for at least one byte, in a run without faults. -/
inductive WriteRun (fs : Fat16) (l : List ℕ) (now : DosStamp) (ino : Inode) (buf : Buf) (count offset : ℕ) : Prop
  | noFirst (hl : l = []) (hfree : fs.freeList = [])
      (hrun : fat16Write now ino buf count offset fs = some ((-1, ino), fs))
  | noSpace {c : ℕ} {fs' : Fat16} {l' : List ℕ} (hcap : fs.capacity (fs.supply l) ≤ offset % 2 ^ 32)
      (hgrow : fs.Grows fs' c l l') (hfree : fs'.freeList = [])
      (hrun : fat16Write now ino buf count offset fs = some ((-1, ino.withCluster c), fs'))
  | wrote {c : ℕ} {fs' : Fat16} {l' : List ℕ} (hcap : offset % 2 ^ 32 < fs.capacity (fs.supply l))
      (hw : fs.Writes fs' c l l' (offset % 2 ^ 32) (fs.stored l count offset) buf)
      (hcov : offset % 2 ^ 32 + fs.stored l count offset ≤ fs.capacity l')
      (hrun : fat16Write now ino buf count offset fs =
        some ((((fs.stored l count offset : ℕ) : ℤ), (ino.withCluster c).written now offset (fs.stored l count offset)),
          fs'.setEntry ino.loc ((ino.withCluster c).written now offset (fs.stored l count offset)).ent))

@[simp] theorem Inode.written_loc (now : DosStamp) (ino : Inode) (offset done : ℕ) :
    (ino.written now offset done).loc = ino.loc := by
  unfold Inode.written
  split <;> split <;> rfl

section WholeWrite

variable {ino : Inode} {count : ℕ}

/-- The write once its first cluster was found: bytes are stored, and the slot is rewritten. -/
theorem fat16Write_data (hm : fs.Mounted) (hdir : isDir ino.ent = false) (hro : fs.readOnly = false)
    (hmin : ∀ y ∈ fs.supply l, FAT16_CLUSTER_MIN ≤ y) (now : DosStamp) (buf : Buf) (hcount : count ≠ 0) {offset r : ℕ}
    {fs1 fs2 : Fat16} {l2 : List ℕ} (hfirst : writeFirst ino fs = some (some (ino.withCluster c), fs1))
    (hseek : writeSeek fs.header.clusterSize (offset % 2 ^ 32) (2 ^ 32) (fs.header.clusterSize % 2 ^ 32)
      (ino.withCluster c).ent.cluster fs1 = some (r, fs2))
    (hgrow : fs.Grows fs2 c l l2) (hr : l2[offset % 2 ^ 32 / fs.header.clusterSize]? = some r)
    (hfit : fs.stored l count offset < 2 ^ 32) :
    ∃ fs' l', offset % 2 ^ 32 < fs.capacity (fs.supply l) ∧
      fs.Writes fs' c l l' (offset % 2 ^ 32) (fs.stored l count offset) buf ∧
      offset % 2 ^ 32 + fs.stored l count offset ≤ fs.capacity l' ∧
      fat16Write now ino buf count offset fs =
        some ((((fs.stored l count offset : ℕ) : ℤ), (ino.withCluster c).written now offset (fs.stored l count offset)),
          fs'.setEntry ino.loc ((ino.withCluster c).written now offset (fs.stored l count offset)).ent) := by
  have hr0 : r ≠ 0 := hgrow.heads.ne_zero (List.mem_of_getElem? hr)
  have hpos := hm.sound.clusterSize_pos
  have hsplit := Nat.div_add_mod' (offset % 2 ^ 32) fs.header.clusterSize
  have hstored : min count (fs.capacity (l ++ fs.freeList) - offset % 2 ^ 32) = fs.stored l count offset := rfl
  have hcap : offset % 2 ^ 32 < fs.capacity (fs.supply l) := by
    have hin : offset % 2 ^ 32 / fs.header.clusterSize < l2.length := (List.getElem?_eq_some_iff.mp hr).1
    have hle : fs.capacity l2 ≤ fs.capacity (fs.supply l) := by
      rw [Fat16.supply, ← hgrow.supply, capacity_append]
      exact Nat.le_add_right _ _
    rw [Nat.div_lt_iff_lt_mul hpos] at hin
    exact Nat.lt_of_lt_of_le hin hle
  have hcap' : offset % 2 ^ 32 < fs.capacity (l ++ fs.freeList) := hcap
  obtain ⟨t, fs3, l3, k, hdata, hk, hdone, hw, hcov⟩ := writeClusters_spec count (count + CLUSTER_STEPS)
    ⟨offset % 2 ^ 32 % fs.header.clusterSize, 0, false, buf⟩ hgrow.mounted hgrow.heads hr rfl
    (by rw [hgrow.header]; exact Nat.mod_lt _ hpos)
    (by rw [hgrow.supply, capacity_congr hgrow.header, hgrow.header]; simp only [hsplit]; omega)
    (le_trans (Nat.le_add_left _ count) (Nat.le_add_left _ _))
  rw [hgrow.supply, capacity_congr hgrow.header, hgrow.header] at hk
  rw [hgrow.header] at hw hcov
  rw [capacity_congr hgrow.header] at hcov
  simp only [hsplit, Nat.sub_zero, hstored] at hk
  simp only [hsplit, hk, Nat.zero_add] at hw hcov hdone
  have hwhole := (Fat16.Writes.of_grows hgrow hmin (offset % 2 ^ 32) buf).trans
    (n := 0) (by rw [Nat.add_zero]; simpa only [Nat.zero_add] using hw)
  rw [Nat.zero_add] at hwhole
  have hstore : 0 < fs.stored l count offset := by
    rw [← hstored]
    omega
  have hrun : fat16Write now ino buf count offset fs = _ :=
    fat16Write_out hdir hro hcount hfirst hseek hr0 hdata (fat16DirWrite_ok hw.mounted.noFaults _ _)
  rw [hdone, writeResult, if_pos hstore, Inode.written_loc] at hrun
  exact ⟨fs3, l3, hcap, hwhole, hcov, hrun⟩

/-- The write once the first cluster is at hand. -/
theorem writeRun_of_first (hm : fs.Mounted) (hspc : fs.header.spc ≤ 128) (hdir : isDir ino.ent = false)
    (hro : fs.readOnly = false) (hlt : fs.capacity (fs.supply l) < 2 ^ 32)
    (hmin : ∀ y ∈ fs.supply l, FAT16_CLUSTER_MIN ≤ y) (now : DosStamp) (buf : Buf) (hcount : count ≠ 0)
    (offset : ℕ) {fs1 : Fat16} {l1 : List ℕ} (hfirst : writeFirst ino fs = some (some (ino.withCluster c), fs1))
    (hgrow1 : fs.Grows fs1 c l l1) : WriteRun fs l now ino buf count offset := by
  have hcluster := ino.withCluster_cluster hgrow1.heads.head_lt
  obtain ⟨r, fs2, l2, hseek, hgrow2, hcase⟩ := writeSeek_spec hgrow1.mounted (by rw [hgrow1.header]; exact hspc)
    hgrow1.heads (offset % 2 ^ 32)
  have hgrow := hgrow1.trans hgrow2
  rw [hgrow1.header, ← hcluster] at hseek
  rw [hgrow1.supply, capacity_congr hgrow1.header, hgrow1.header] at hcase
  rcases hcase with ⟨rfl, hcap, hfree⟩ | ⟨-, hr⟩
  · exact .noSpace hcap hgrow hfree (fat16Write_seek_failed hdir hro hcount hfirst hseek)
  · have hfit : fs.stored l count offset < 2 ^ 32 := by
      unfold Fat16.stored
      omega
    obtain ⟨fs', l', hcap, hw, hcov, hrun⟩ := fat16Write_data hm hdir hro hmin now buf hcount hfirst hseek hgrow hr hfit
    exact .wrote hcap hw hcov hrun

/-- **What `fat16_write` does**, in a run without faults: it fails where the file's clusters and the free ones end
before the offset (taken modulo `2^32`); else it stores all bytes, or as many as fit, and rewrites the file's slot. -/
theorem fat16Write_spec (hm : fs.Mounted) (hspc : fs.header.spc ≤ 128) (hdir : isDir ino.ent = false)
    (hro : fs.readOnly = false) (hown : fs.Owns ino.ent.cluster l) (now : DosStamp) (buf : Buf)
    (hcount : count ≠ 0) (offset : ℕ) : WriteRun fs l now ino buf count offset := by
  have hrest : ∀ {c fs1 l1}, writeFirst ino fs = some (some (ino.withCluster c), fs1) → fs.Grows fs1 c l l1 →
      WriteRun fs l now ino buf count offset := fun hfirst hgrow => writeRun_of_first hm hspc hdir hro
    (hown.supply_lt hm.sound hspc) hown.supply_min now buf hcount offset hfirst hgrow
  rcases writeFirst_ok hm hown with ⟨-, hl, hfree, hfirst⟩ | ⟨-, rfl, a, hfirst, hgrow⟩ | ⟨hheads, hfirst⟩
  · exact .noFirst hl hfree (fat16Write_no_first hdir hro hcount hfirst)
  · exact hrest hfirst hgrow
  · exact hrest hfirst (.refl hm hheads)

end WholeWrite

end LizardOs.Fat
