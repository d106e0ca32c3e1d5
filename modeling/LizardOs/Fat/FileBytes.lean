import LizardOs.Fat.Extend
import LizardOs.Fat.Readdir

/-!
# The bytes of a file, and what the read loops copy

The data of a file are the sectors of its clusters in the order of the chain.  `chainByte` is byte `p` of these data.
The loops of `fat16_read` skip whole clusters, then whole sectors, and copy one chunk for each sector; together they copy
a stretch of consecutive bytes of the chain (`readClusters_ok`).  As long as the counters do not wrap, that is: a FAT16
cluster has at most 128 sectors, so that no chain is as long as `2^32` bytes.
-/

namespace LizardOs.Fat

open LizardOs.Lib

variable {fs : Fat16} {c : ℕ} {l : List ℕ}

/-! ### Positions -/

namespace Fat16

/-- Byte `a` of the sectors from `lba` on. -/
def dataByte (fs : Fat16) (lba a : ℕ) : UInt8 := fs.disk (lba + a / 512) (a % 512)

/-- Byte `p` of the data of a chain; zero behind its end. -/
def chainByte (fs : Fat16) (l : List ℕ) (p : ℕ) : UInt8 :=
  match l[p / fs.header.clusterSize]? with
  | none => 0
  | some c => fs.dataByte (fs.header.clusterToLba c) (p % fs.header.clusterSize)

/-- How many bytes a chain holds. -/
def capacity (fs : Fat16) (l : List ℕ) : ℕ := l.length * fs.header.clusterSize

end Fat16

theorem dataByte_succ (fs : Fat16) (lba a : ℕ) : fs.dataByte (lba + 1) a = fs.dataByte lba (512 + a) := by
  unfold Fat16.dataByte
  rw [show lba + 1 + a / 512 = lba + (512 + a) / 512 by omega, show (512 + a) % 512 = a % 512 by omega]

theorem dataByte_of_lt (fs : Fat16) (lba : ℕ) {a : ℕ} (h : a < 512) : fs.dataByte lba a = fs.disk lba a := by
  unfold Fat16.dataByte
  rw [Nat.div_eq_of_lt h, Nat.mod_eq_of_lt h, Nat.add_zero]

theorem FatHeader.Sound.clusterSize_eq {h : FatHeader} (hs : h.Sound) : h.clusterSize = h.spc * 512 := by
  rw [FatHeader.clusterSize, hs.bps_eq, Nat.mul_comm]

theorem FatHeader.Sound.clusterSize_pos {h : FatHeader} (hs : h.Sound) : 0 < h.clusterSize := by
  have := hs.spc
  rw [hs.clusterSize_eq]
  omega

/-- The first cluster of a chain holds its first bytes. -/
theorem chainByte_head (fs : Fat16) (c : ℕ) (l : List ℕ) {p : ℕ} (hp : p < fs.header.clusterSize) :
    fs.chainByte (c :: l) p = fs.dataByte (fs.header.clusterToLba c) p := by
  rw [Fat16.chainByte, Nat.div_eq_of_lt hp, Nat.mod_eq_of_lt hp]
  rfl

/-- The bytes behind the first clusters are those of the rest of the chain. -/
theorem chainByte_append (hs : fs.header.Sound) (l m : List ℕ) (p : ℕ) :
    fs.chainByte (l ++ m) (fs.capacity l + p) = fs.chainByte m p := by
  have hpos := hs.clusterSize_pos
  have hdiv : (l.length * fs.header.clusterSize + p) / fs.header.clusterSize =
      l.length + p / fs.header.clusterSize := by
    rw [Nat.add_comm, Nat.add_mul_div_right _ _ hpos, Nat.add_comm]
  have hmod : (l.length * fs.header.clusterSize + p) % fs.header.clusterSize =
      p % fs.header.clusterSize := by
    rw [Nat.add_comm, Nat.add_mul_mod_self_right]
  rw [Fat16.chainByte, Fat16.chainByte, Fat16.capacity, hdiv, hmod,
    List.getElem?_append_right (Nat.le_add_right _ _), Nat.add_sub_cancel_left]

theorem chainByte_cons (hs : fs.header.Sound) (c : ℕ) (l : List ℕ) (p : ℕ) :
    fs.chainByte (c :: l) (fs.header.clusterSize + p) = fs.chainByte l p := by
  have h := chainByte_append hs [c] l p
  rw [Fat16.capacity, List.length_singleton, Nat.one_mul] at h
  exact h

theorem capacity_cons (fs : Fat16) (c : ℕ) (l : List ℕ) :
    fs.capacity (c :: l) = fs.header.clusterSize + fs.capacity l := by
  rw [Fat16.capacity, Fat16.capacity, List.length_cons, Nat.succ_mul, Nat.add_comm]

theorem capacity_append (fs : Fat16) (l m : List ℕ) : fs.capacity (l ++ m) = fs.capacity l + fs.capacity m := by
  rw [Fat16.capacity, Fat16.capacity, Fat16.capacity, List.length_append, Nat.add_mul]

/-- No chain of a volume with at most 128 sectors per cluster holds `2^32` bytes. -/
theorem capacity_lt (hs : fs.header.Sound) (hspc : fs.header.spc ≤ 128) (hnd : l.Nodup)
    (hmin : ∀ x ∈ l, FAT16_CLUSTER_MIN ≤ x) (hl : ∀ x ∈ l, x ≤ fs.header.lastCluster) :
    fs.capacity l < 2 ^ 32 := by
  have hlen : (l.map (· - 2)).length ≤ 65518 := by
    apply nodup_length_le
    · apply List.Nodup.map_on _ hnd
      intro x hx y hy hxy
      have hx' := hmin x hx
      have hy' := hmin y hy
      simp only [FAT16_CLUSTER_MIN] at hx' hy'
      omega
    · intro y hy
      obtain ⟨x, hx, rfl⟩ := List.mem_map.mp hy
      have h1 := hl x hx
      have h2 := fs.header.lastCluster_le
      have h3 := hmin x hx
      simp only [FAT16_CLUSTER_MIN, FAT16_CLUSTER_MAX] at *
      omega
  rw [List.length_map] at hlen
  have hcs : fs.header.clusterSize ≤ 65536 := by
    rw [hs.clusterSize_eq]
    omega
  have hmul := Nat.mul_le_mul hlen hcs
  rw [Fat16.capacity]
  omega

theorem Fat16.Heads.capacity_lt (h : fs.Heads c l) (hs : fs.header.Sound) (hspc : fs.header.spc ≤ 128) :
    fs.capacity l < 2 ^ 32 :=
  Fat.capacity_lt hs hspc h.nodup (fun _ hx => h.min_le hx) fun _ hx => h.inside hx

/-! ### Runs that read only -/

namespace Fat16

/-- `fs'` is `fs` after some transfers that wrote nothing. -/
structure OnlyRead (fs fs' : Fat16) : Prop where
  rest : fs' = { fs with ioFaults := fs'.ioFaults }
  quiet : fs.ioFaults = [] → fs' = fs

namespace OnlyRead

variable {fs' fs'' : Fat16}

theorem refl (fs : Fat16) : fs.OnlyRead fs := ⟨rfl, fun _ => rfl⟩

theorem trans (h : fs.OnlyRead fs') (h' : fs'.OnlyRead fs'') : fs.OnlyRead fs'' where
  rest := by
    rw [h'.rest, h.rest]
  quiet := by
    intro hq
    rw [h'.quiet (by rw [h.quiet hq]; exact hq), h.quiet hq]

theorem header (h : fs.OnlyRead fs') : fs'.header = fs.header := by rw [h.rest]

theorem disk (h : fs.OnlyRead fs') : fs'.disk = fs.disk := by rw [h.rest]

theorem fatCache (h : fs.OnlyRead fs') : fs'.fatCache = fs.fatCache := by rw [h.rest]

theorem faults (h : fs.OnlyRead fs') (hq : fs.ioFaults = []) : fs'.ioFaults = [] := by
  rw [h.quiet hq]
  exact hq

theorem fatAt (h : fs.OnlyRead fs') (c : ℕ) : fs'.fatAt c = fs.fatAt c := by
  rw [Fat16.fatAt, h.disk, h.header]
  rfl

theorem cacheAgrees (h : fs.OnlyRead fs') (hc : fs.CacheAgrees) : fs'.CacheAgrees := by
  unfold CacheAgrees
  rw [h.fatCache, h.header, h.disk]
  exact hc

theorem dataByte (h : fs.OnlyRead fs') (lba a : ℕ) : fs'.dataByte lba a = fs.dataByte lba a := by
  rw [Fat16.dataByte, h.disk]
  rfl

theorem chainByte (h : fs.OnlyRead fs') (l : List ℕ) (p : ℕ) : fs'.chainByte l p = fs.chainByte l p := by
  unfold Fat16.chainByte
  rw [h.header]
  split
  · rfl
  · exact h.dataByte _ _

theorem capacity (h : fs.OnlyRead fs') (l : List ℕ) : fs'.capacity l = fs.capacity l := by
  rw [Fat16.capacity, h.header]
  rfl

end OnlyRead

end Fat16

/-- A sector read returns the sector, or fails. -/
theorem blkDevRead_spec (fs : Fat16) (sector : ℕ) : ∃ r fs', blkDevRead sector fs = some (r, fs') ∧
    fs.OnlyRead fs' ∧ (r = none ∨ r = some (fs.disk sector)) ∧ (fs.ioFaults = [] → r = some (fs.disk sector)) := by
  unfold blkDevRead
  cases hq : fs.ioFaults with
  | nil => exact ⟨_, _, rfl, .refl fs, .inr rfl, fun _ => rfl⟩
  | cons fault rest =>
    refine ⟨_, _, rfl, ⟨rfl, fun h => ?_⟩, ?_, fun h => ?_⟩
    · rw [hq] at h
      cases h
    · by_cases hfault : fault .read sector
      · exact .inl (if_pos hfault)
      · exact .inr (if_neg hfault)
    · cases h

/-- The link of a cluster, or the end of the chain where the table cannot be read. -/
theorem fat16NextCluster_spec (hs : fs.header.Sound) (hc : fs.CacheAgrees) {x : ℕ}
    (hx : x ≤ fs.header.lastCluster) : ∃ r fs', fat16NextCluster x fs = some (r, fs') ∧ fs.OnlyRead fs' ∧
      (r = fs.fatAt x ∨ fat16ClusterValid r = false) ∧ (fs.ioFaults = [] → r = fs.fatAt x) := by
  cases hcache : fs.fatCache with
  | none =>
    obtain ⟨r, fs', hrun, hro, hr, hq⟩ := blkDevRead_spec fs
      (fs.header.fatStartLba + x * FAT16_FAT_ENTRY_SIZE / fs.header.bps)
    have hval : (le16 (fs.disk (fs.header.fatStartLba + x * FAT16_FAT_ENTRY_SIZE / fs.header.bps))
        (x * FAT16_FAT_ENTRY_SIZE % fs.header.bps)).toNat = fs.fatAt x := by
      rw [hs.bps_eq]
      rfl
    simp only [fat16NextCluster, fat16FatGet, fatFromDisk, Prog.bind_apply, Prog.get_apply, Prog.obind_some, hcache, hrun]
    cases r with
    | none =>
      refine ⟨FAT16_EOC, fs', rfl, hro, .inr (by decide), fun h => ?_⟩
      cases hq h
    | some buf =>
      obtain rfl : buf = fs.disk (fs.header.fatStartLba + x * FAT16_FAT_ENTRY_SIZE / fs.header.bps) := by
        rcases hr with hr | hr
        · cases hr
        · exact Option.some.inj hr
      exact ⟨_, fs', rfl, hro, .inl hval, fun _ => hval⟩
  | some cache =>
    refine ⟨fs.fatAt x, fs, ?_, .refl fs, .inl rfl, fun _ => rfl⟩
    simp only [fat16NextCluster, Prog.bind_apply, fat16FatGet_cached hs hc hcache hx, Prog.obind_some,
      Prog.pure_apply]

/-! ### The read loops -/

/-- `t'` is the transfer `t` after `k` more bytes of `src`. -/
structure Transfer.Reads (t t' : Transfer) (src : Buf) (k : ℕ) : Prop where
  done : t'.done = t.done + k
  buf : t'.buf = splice t.buf t.done src k

namespace Transfer.Reads

variable {t t' t'' : Transfer} {src src' : Buf} {k m : ℕ}

theorem nothing (t : Transfer) (src : Buf) : t.Reads t src 0 := ⟨rfl, (splice_nothing _ _ _).symm⟩

theorem trans (h : t.Reads t' src k) (h' : t'.Reads t'' src' m) (hsrc : ∀ j < m, src' j = src (k + j)) :
    t.Reads t'' src (k + m) where
  done := by rw [h'.done, h.done, Nat.add_assoc]
  buf := by rw [h'.buf, h.buf, h.done, splice_congr hsrc, splice_append]

theorem congr (h : t.Reads t' src k) (hsrc : ∀ j < k, src j = src' j) : t.Reads t' src' k :=
  ⟨h.done, by rw [h.buf, splice_congr hsrc]⟩

end Transfer.Reads

/-- How many bytes the chunk of one sector has. -/
theorem chunk_eq (count done skip : ℕ) :
    (if 512 - skip < count - done then 512 - skip else (count - done) % 2 ^ 32) = min (count - done) (512 - skip) := by
  split
  · omega
  · rw [Nat.mod_eq_of_lt (by omega)]
    omega

/-- The chunk of one sector and what the sectors behind it can add. -/
theorem chunk_add_rest {count done skip chunk : ℕ} (n : ℕ) (hskip : skip < 512)
    (hc : min (count - done) (512 - skip) = chunk) :
    chunk + min (count - (done + chunk)) (n * 512 - 0) = min (count - done) ((n + 1) * 512 - skip) := by
  omega

/-- A chunk ends in its sector. -/
theorem chunk_fits {count done skip chunk : ℕ} (hskip : skip < 512) (hc : min (count - done) (512 - skip) = chunk) :
    skip + chunk ≤ 512 := by
  omega

/-- Nothing is left for the sectors behind a chunk, or the chunk reaches the end of its sector. -/
theorem chunk_rest_or_full {count done skip chunk : ℕ} (n : ℕ) (hskip : skip < 512)
    (hc : min (count - done) (512 - skip) = chunk) :
    min (count - (done + chunk)) (n * 512 - 0) = 0 ∨ skip + chunk = 512 := by
  omega

/-- **The sector loop of `fat16_read`** copies consecutive bytes, all that are wanted unless a transfer fails. -/
theorem readSectors_spec (count n : ℕ) : ∀ (fs : Fat16) (lba : ℕ) (t : Transfer), t.failed = false →
    t.done + min (count - t.done) (n * 512 - t.skip) < 2 ^ 32 →
    ∃ t' fs' k, readSectors 512 count n lba t fs = some (t', fs') ∧ fs.OnlyRead fs' ∧
      t.Reads t' (fun j => fs.dataByte lba (t.skip + j)) k ∧
      k ≤ min (count - t.done) (n * 512 - t.skip) ∧
      (t'.failed = false → k = min (count - t.done) (n * 512 - t.skip) ∧
        (t.done < count ∨ t.skip = 0 → t'.skip = t.skip - n * 512)) ∧
      (fs.ioFaults = [] → t'.failed = false) := by
  induction n with
  | zero =>
    intro fs lba t ht _
    refine ⟨t, fs, 0, rfl, .refl fs, .nothing t _, Nat.zero_le _, fun _ => ⟨by omega, fun _ => by omega⟩, fun _ => ht⟩
  | succ n ih =>
    intro fs lba t ht hk
    by_cases hdone : t.done < count
    · by_cases hskip : 512 ≤ t.skip
      · obtain ⟨a, ha⟩ : ∃ a, t.skip - 512 = a := ⟨_, rfl⟩
        have hrem : (n + 1) * 512 - t.skip = n * 512 - a := by omega
        rw [hrem] at hk ⊢
        obtain ⟨t', fs', k, hrun, hro, hreads, hle, hall, hq⟩ :=
          ih fs (lba + 1) { t with skip := a } ht hk
        refine ⟨t', fs', k, ?_, hro, ?_, hle, ?_, hq⟩
        · simp only [readSectors, hdone, hskip, if_true, ha]
          exact hrun
        · refine Transfer.Reads.congr (t := t) ⟨hreads.done, hreads.buf⟩ fun j _ => ?_
          show fs.dataByte (lba + 1) (a + j) = fs.dataByte lba (t.skip + j)
          rw [dataByte_succ, show 512 + (a + j) = t.skip + j by omega]
        · intro hfail
          obtain ⟨hmin, hlast⟩ := hall hfail
          have hlast' : t'.skip = a - n * 512 := hlast (.inl hdone)
          exact ⟨hmin, fun _ => by omega⟩
      · -- one chunk from this sector, the rest from the sectors behind it
        have hcopy := chunk_eq count t.done t.skip
        have hmono : min (count - t.done) (512 - t.skip) ≤ min (count - t.done) ((n + 1) * 512 - t.skip) :=
          min_le_min_left _ (by omega)
        have hwrap : (t.done + min (count - t.done) (512 - t.skip)) % 2 ^ 32 =
            t.done + min (count - t.done) (512 - t.skip) :=
          Nat.mod_eq_of_lt (Nat.lt_of_le_of_lt (Nat.add_le_add_left hmono _) hk)
        obtain ⟨r, fs1, hread, hro1, hr, hq1⟩ := blkDevRead_spec fs lba
        cases r with
        | none =>
          refine ⟨{ t with failed := true }, fs1, 0, ?_, hro1, ⟨rfl, (splice_nothing _ _ _).symm⟩, Nat.zero_le _, ?_, ?_⟩
          · simp only [readSectors, hdone, hskip, if_true, if_false, Prog.bind_apply, hread, Prog.obind_some,
              Prog.pure_apply]
          · intro hfail
            cases hfail
          · intro hq
            cases hq1 hq
        | some sector =>
          obtain rfl : sector = fs.disk lba := by
            rcases hr with hr | hr
            · cases hr
            · exact Option.some.inj hr
          generalize hc : min (count - t.done) (512 - t.skip) = chunk at hcopy hwrap hmono
          have hfits := chunk_fits (Nat.lt_of_not_le hskip) hc
          have hsum := chunk_add_rest n (Nat.lt_of_not_le hskip) hc
          have hk' : t.done + chunk + min (count - (t.done + chunk)) (n * 512 - 0) < 2 ^ 32 := by
            rw [Nat.add_assoc, hsum]
            exact hk
          obtain ⟨t', fs', k, hrun, hro, hreads, hle, hall, hq⟩ := ih fs1 (lba + 1)
            ⟨0, t.done + chunk, false, splice t.buf t.done (fun j => fs.disk lba (t.skip + j)) chunk⟩ rfl hk'
          have hle' : k ≤ min (count - (t.done + chunk)) (n * 512 - 0) := hle
          refine ⟨t', fs', chunk + k, ?_, hro1.trans hro, ?_, ?_, ?_, fun h => hq (hro1.faults h)⟩
          · simp only [readSectors, hdone, hskip, if_true, if_false, Prog.bind_apply, hread, Prog.obind_some, hcopy,
              hwrap]
            exact hrun
          · have hfirst : t.Reads ⟨0, t.done + chunk, false,
                splice t.buf t.done (fun j => fs.disk lba (t.skip + j)) chunk⟩
                (fun j => fs.dataByte lba (t.skip + j)) chunk := by
              refine ⟨rfl, ?_⟩
              show splice t.buf t.done (fun j => fs.disk lba (t.skip + j)) chunk = _
              apply splice_congr
              intro j hj
              rw [dataByte_of_lt _ _ (Nat.lt_of_lt_of_le (Nat.add_lt_add_left hj t.skip) hfits)]
            refine hfirst.trans hreads fun j hj => ?_
            have hfull : t.skip + chunk = 512 := by
              rcases chunk_rest_or_full n (Nat.lt_of_not_le hskip) hc with hzero | hfull
              · exact absurd (Nat.lt_of_lt_of_le hj (hzero ▸ hle')) (Nat.not_lt_zero j)
              · exact hfull
            show fs1.dataByte (lba + 1) (0 + j) = fs.dataByte lba (t.skip + (chunk + j))
            rw [hro1.dataByte, dataByte_succ, ← Nat.add_assoc t.skip, hfull, Nat.zero_add]
          · rw [← hsum]
            exact Nat.add_le_add_left hle' chunk
          · intro hfail
            obtain ⟨hmin, hlast⟩ := hall hfail
            have hmin' : k = min (count - (t.done + chunk)) (n * 512 - 0) := hmin
            have hlast' : t'.skip = 0 - n * 512 := hlast (.inr rfl)
            refine ⟨?_, fun _ => ?_⟩
            · rw [← hsum, hmin']
            · have hinside : t.skip ≤ (n + 1) * 512 :=
                Nat.le_trans (Nat.le_of_not_le hskip) (Nat.le_mul_of_pos_left 512 n.succ_pos)
              rw [hlast', Nat.zero_sub, Nat.sub_eq_zero_of_le hinside]
    · refine ⟨t, fs, 0, ?_, .refl fs, .nothing t _, Nat.zero_le _, ?_, fun _ => ht⟩
      · simp only [readSectors, hdone, if_false, Prog.pure_apply]
      · intro _
        exact ⟨by omega, fun _ => by omega⟩

/-- **The cluster loop of `fat16_read`** copies consecutive bytes of the chain, all that are wanted and there unless a
transfer fails. -/
theorem readClusters_spec (count : ℕ) (m : List ℕ) : ∀ {fs : Fat16} {x tail n : ℕ} (t : Transfer),
    fs.header.Sound → fs.CacheAgrees → Path fs.fatAt fat16ClusterValid x m tail →
    fat16ClusterValid tail = false → (∀ y ∈ m, y ≤ fs.header.lastCluster) → t.failed = false →
    t.skip < fs.header.clusterSize → t.done + min (count - t.done) (fs.capacity m - t.skip) < 2 ^ 32 → m.length < n →
    ∃ t' fs' k, readClusters count n x t fs = some (t', fs') ∧ fs.OnlyRead fs' ∧
      t.Reads t' (fun j => fs.chainByte m (t.skip + j)) k ∧
      k ≤ min (count - t.done) (fs.capacity m - t.skip) ∧
      (fs.ioFaults = [] → k = min (count - t.done) (fs.capacity m - t.skip) ∧ t'.failed = false) := by
  induction m with
  | nil =>
    intro fs x tail n t hs hc hpath htail hin ht hskip hk hn
    obtain ⟨n, rfl⟩ : ∃ i, n = i + 1 := ⟨n - 1, by simp at hn; omega⟩
    rw [path_nil] at hpath
    refine ⟨t, fs, 0, ?_, .refl fs, .nothing t _, Nat.zero_le _, fun _ => ⟨?_, ht⟩⟩
    · simp only [readClusters, hpath, htail, Bool.false_and, Bool.false_eq_true, if_false, Prog.pure_apply]
    · simp [Fat16.capacity]
  | cons y m ih =>
    intro fs x tail n t hs hc hpath htail hin ht hskip hk hn
    obtain ⟨n, rfl⟩ : ∃ i, n = i + 1 := ⟨n - 1, by simp at hn; omega⟩
    obtain ⟨rfl, hvalid, hpath⟩ := hpath
    have hcs := hs.clusterSize_eq
    rw [capacity_cons] at hk ⊢
    by_cases hdone : t.done < count
    · have hk1 : t.done + min (count - t.done) (fs.header.spc * 512 - t.skip) < 2 ^ 32 := by omega
      obtain ⟨t1, fs1, k1, hrun1, hro1, hreads1, hle1, hall1, hq1⟩ :=
        readSectors_spec count fs.header.spc fs (fs.header.clusterToLba x) t ht hk1
      have hreads : t.Reads t1 (fun j => fs.chainByte (x :: m) (t.skip + j)) k1 := by
        apply hreads1.congr
        intro j hj
        rw [chainByte_head fs x m (by omega)]
      cases hfail : t1.failed with
      | true =>
        refine ⟨t1, fs1, k1, ?_, hro1, hreads, by omega, fun hq => ?_⟩
        · simp only [readClusters, hvalid, hdone, decide_true, Bool.and_self, if_true, Prog.bind_apply, Prog.get_apply,
            Prog.obind_some, hs.bps_eq, hrun1, hfail, Prog.pure_apply]
        · rw [hq1 hq] at hfail
          cases hfail
      | false =>
        obtain ⟨hk1', hskip1⟩ := hall1 hfail
        have hskip1' : t1.skip = 0 := by
          rw [hskip1 (.inl hdone)]
          omega
        obtain ⟨r, fs2, hnext, hro2, hr, hq2⟩ := fat16NextCluster_spec
          (show fs1.header.Sound by rw [hro1.header]; exact hs) (hro1.cacheAgrees hc) (x := x)
          (by rw [hro1.header]; exact hin x (by simp))
        have hro := hro1.trans hro2
        have hstep : readClusters count (n + 1) x t fs = readClusters count n r t1 fs2 := by
          simp only [readClusters, hvalid, hdone, decide_true, Bool.and_self, if_true, Prog.bind_apply, Prog.get_apply,
            Prog.obind_some, hs.bps_eq, hrun1, hfail, Bool.false_eq_true, if_false, hnext]
        have hn' : m.length < n := by
          rw [List.length_cons] at hn
          omega
        have hmore : t1.done = t.done + k1 := hreads1.done
        rw [hro1.fatAt] at hr hq2
        by_cases hlink : r = fs.fatAt x
        · -- the link could be read: the rest of the chain follows
          rw [hlink] at hstep
          have hpath' : Path fs2.fatAt fat16ClusterValid (fs.fatAt x) m tail := hpath.congr fun z _ => hro.fatAt z
          have hin' : ∀ z ∈ m, z ≤ fs2.header.lastCluster := by
            intro z hz
            rw [hro.header]
            exact hin z (by simp [hz])
          obtain ⟨t2, fs3, k2, hrun2, hro3, hreads2, hle2, hall2⟩ := ih (n := n) t1 (by rw [hro.header]; exact hs)
            (hro.cacheAgrees hc) hpath' htail hin' hfail (by rw [hro.header, hskip1']; exact hs.clusterSize_pos)
            (by rw [hro.capacity, hskip1']; omega) hn'
          rw [hro.capacity, hskip1'] at hle2 hall2
          refine ⟨t2, fs3, k1 + k2, hstep.trans hrun2, hro.trans hro3, hreads.trans hreads2 ?_, by omega, fun hq => ?_⟩
          · intro j hj
            have hpos : t.skip + (k1 + j) = fs.header.clusterSize + j := by omega
            rw [hpos, chainByte_cons hs, hro.chainByte, hskip1', Nat.zero_add]
          · obtain ⟨hk2, hfail2⟩ := hall2 (hro.faults hq)
            exact ⟨by omega, hfail2⟩
        · have hend := hr.resolve_left hlink
          refine ⟨t1, fs2, k1, ?_, hro, hreads, by omega, fun hq => absurd (hq2 (hro1.faults hq)) hlink⟩
          obtain ⟨i, rfl⟩ : ∃ i, n = i + 1 := ⟨n - 1, by omega⟩
          rw [hstep]
          simp only [readClusters, hend, Bool.false_and, Bool.false_eq_true, if_false, Prog.pure_apply]
    · refine ⟨t, fs, 0, ?_, .refl fs, .nothing t _, Nat.zero_le _, fun _ => ⟨by omega, ht⟩⟩
      simp only [readClusters, hdone, decide_false, Bool.and_false, Bool.false_eq_true, if_false, Prog.pure_apply]

/-- **The seek of `fat16_read`** ends on the cluster that holds the offset, unless the chain is too short or a link
cannot be read. -/
theorem readSkip_spec (m : List ℕ) : ∀ {fs : Fat16} {x tail : ℕ} (n skip : ℕ),
    fs.header.Sound → fs.CacheAgrees → Path fs.fatAt fat16ClusterValid x m tail → m ≠ [] →
    fat16ClusterValid tail = false → (∀ y ∈ m, y ≤ fs.header.lastCluster) → skip < n →
    ∃ r fs', readSkip fs.header.clusterSize n x skip fs = some (r, fs') ∧ fs.OnlyRead fs' ∧
      (r = none ∨ ∃ y, r = some (y, skip % fs.header.clusterSize) ∧ skip < fs.capacity m ∧
        Path fs.fatAt fat16ClusterValid y (m.drop (skip / fs.header.clusterSize)) tail) ∧
      (fs.ioFaults = [] → skip < fs.capacity m → r ≠ none) := by
  induction m with
  | nil =>
    intro fs x tail n skip _ _ _ hne
    exact absurd rfl hne
  | cons y m ih =>
    intro fs x tail n skip hs hc hpath _ htail hin hn
    obtain ⟨n, rfl⟩ : ∃ i, n = i + 1 := ⟨n - 1, by omega⟩
    have hpos := hs.clusterSize_pos
    rw [capacity_cons]
    by_cases hskip : fs.header.clusterSize ≤ skip
    · obtain ⟨rfl, hvalid, hpath⟩ := hpath
      obtain ⟨r, fs1, hnext, hro, hr, hq⟩ := fat16NextCluster_spec hs hc (hin x (by simp))
      cases hv : fat16ClusterValid r with
      | false =>
        refine ⟨none, fs1, ?_, hro, .inl rfl, fun hf hlt => ?_⟩
        · simp only [readSkip, hskip, if_true, Prog.bind_apply, hnext, Prog.obind_some, hv, Bool.false_eq_true, if_false,
            Prog.pure_apply]
        · cases m with
          | nil =>
            rw [Fat16.capacity, List.length_nil, Nat.zero_mul] at hlt
            omega
          | cons z m =>
            rw [hq hf, hpath.head, hpath.2.1] at hv
            cases hv
      | true =>
        obtain rfl : r = fs.fatAt x := by
          rcases hr with hr | hr
          · exact hr
          · rw [hr] at hv
            cases hv
        have hne : m ≠ [] := by
          rintro rfl
          rw [path_nil] at hpath
          rw [hpath, htail] at hv
          cases hv
        obtain ⟨a, ha⟩ : ∃ a, skip = a + fs.header.clusterSize := ⟨skip - fs.header.clusterSize, by omega⟩
        have hmod : skip % fs.header.clusterSize = a % fs.header.clusterSize := by
          rw [ha, Nat.add_mod_right]
        have hdiv : skip / fs.header.clusterSize = a / fs.header.clusterSize + 1 := by
          rw [ha, Nat.add_div_right _ hpos]
        obtain ⟨r, fs2, hrun, hro', hcase, hok⟩ := ih n a (show fs1.header.Sound by rw [hro.header]; exact hs)
          (hro.cacheAgrees hc) (hpath.congr fun z _ => hro.fatAt z) hne htail
          (by intro z hz; rw [hro.header]; exact hin z (by simp [hz])) (by omega)
        rw [hro.header] at hrun
        refine ⟨r, fs2, ?_, hro.trans hro', ?_, fun hf hlt => ?_⟩
        · simp only [readSkip, hskip, if_true, Prog.bind_apply, hnext, Prog.obind_some, hv]
          rw [show skip - fs.header.clusterSize = a by omega]
          exact hrun
        · rw [hro.header, hro.capacity] at hcase
          rcases hcase with hnone | ⟨z, hsome, hlt, hrest⟩
          · exact .inl hnone
          · refine .inr ⟨z, by rw [hmod]; exact hsome, by omega, ?_⟩
            rw [hdiv, List.drop_succ_cons]
            exact hrest.congr fun w _ => (hro.fatAt w).symm
        · exact hok (hro.faults hf) (by rw [hro.capacity]; omega)
    · have hlt : skip < fs.header.clusterSize := by omega
      refine ⟨some (x, skip), fs, ?_, .refl fs, .inr ⟨x, ?_, by omega, ?_⟩, fun _ _ => by simp⟩
      · simp only [readSkip, hskip, if_false, Prog.pure_apply]
      · rw [Nat.mod_eq_of_lt hlt]
      · rw [Nat.div_eq_of_lt hlt, List.drop_zero]
        exact hpath

/-! ### The whole read -/

/-- The count `fat16_read` goes on with: clamped at the end of the file, unless `offset + count` overflows. -/
def readWant (size count offset : ℕ) : ℕ :=
  if size ≤ offset then 0 else if offset + count < 2 ^ 63 then min count (size - offset) else count

theorem readWant_eq {size count offset : ℕ} (hoff : offset < 2 ^ 63) (hcount : count < 2 ^ 63) (hsize : size < 2 ^ 63)
    (h : offset < size) :
    (if asI64 size < asI64 (offset + count) then (size + 2 ^ 64 - offset) % 2 ^ 64 else count) =
      readWant size count offset := by
  unfold readWant
  rw [if_neg (show ¬size ≤ offset by omega), asI64_of_lt hsize]
  by_cases hsum : offset + count < 2 ^ 63
  · rw [if_pos hsum, asI64_of_lt hsum]
    have hmod : (size + 2 ^ 64 - offset) % 2 ^ 64 = size - offset := by omega
    rw [hmod]
    split <;> omega
  · rw [if_neg hsum, asI64_of_ge (by omega) (by omega), if_neg (by omega)]

/-- The bytes from an offset on are those of the clusters from its cluster on. -/
theorem chainByte_drop (hs : fs.header.Sound) {offset : ℕ} (h : offset < fs.capacity l) (j : ℕ) :
    fs.chainByte (l.drop (offset / fs.header.clusterSize)) (offset % fs.header.clusterSize + j) =
      fs.chainByte l (offset + j) := by
  have hpos := hs.clusterSize_pos
  have hq : offset / fs.header.clusterSize < l.length := by
    rw [Nat.div_lt_iff_lt_mul hpos]
    exact h
  have hcap : fs.capacity (l.take (offset / fs.header.clusterSize)) =
      offset / fs.header.clusterSize * fs.header.clusterSize := by
    rw [Fat16.capacity, List.length_take, Nat.min_eq_left (by omega)]
  have hsplit := chainByte_append hs (l.take (offset / fs.header.clusterSize)) (l.drop (offset / fs.header.clusterSize))
    (offset % fs.header.clusterSize + j)
  rw [List.take_append_drop, hcap, ← Nat.add_assoc, Nat.div_add_mod'] at hsplit
  exact hsplit.symm

theorem capacity_drop (fs : Fat16) (l : List ℕ) (offset : ℕ) :
    fs.capacity (l.drop (offset / fs.header.clusterSize)) - offset % fs.header.clusterSize =
      fs.capacity l - offset := by
  have hdiv := Nat.div_add_mod' offset fs.header.clusterSize
  have hmul : (l.length - offset / fs.header.clusterSize) * fs.header.clusterSize =
      l.length * fs.header.clusterSize - offset / fs.header.clusterSize * fs.header.clusterSize := Nat.sub_mul _ _ _
  rw [Fat16.capacity, Fat16.capacity, List.length_drop, hmul]
  omega

/-- **What `fat16_read` copies**: bytes of the chain from the offset on, up to the clamped count or the end of the
chain, or fewer when a transfer fails.  The file and the bytes to copy are counted in 32 bits. -/
theorem fat16Read_run {ino : Inode} (hs : fs.header.Sound) (hc : fs.CacheAgrees) (hown : fs.Owns ino.ent.cluster l)
    (hsize : ino.size ≤ fs.capacity l) (hlt : ino.size < 2 ^ 32) (buf : Buf) {count offset : ℕ} (hoff : offset < 2 ^ 63)
    (hcount : count < 2 ^ 63) (hfit : min (readWant ino.size count offset) (fs.capacity l - offset) < 2 ^ 32) :
    ∃ r buf' fs' k, fat16Read ino buf count offset fs = some ((r, buf'), fs') ∧ fs.OnlyRead fs' ∧
      buf' = splice buf 0 (fun j => fs.chainByte l (offset + j)) k ∧ (r = k ∨ (r = -1 ∧ k = 0)) ∧
      k ≤ min (readWant ino.size count offset) (fs.capacity l - offset) ∧
      (fs.ioFaults = [] → r = k ∧ k = min (readWant ino.size count offset) (fs.capacity l - offset)) := by
  by_cases hend : ino.size ≤ offset
  · have hsize' : asI64 ino.size ≤ asI64 offset := by
      rw [asI64_of_lt hoff, asI64_of_lt (by omega)]
      exact_mod_cast hend
    have hwant : readWant ino.size count offset = 0 := if_pos hend
    refine ⟨0, buf, fs, 0, ?_, .refl fs, (splice_nothing _ _ _).symm, .inl rfl, Nat.zero_le _, fun _ => ⟨rfl, ?_⟩⟩
    · simp only [fat16Read, Prog.bind_apply, Prog.get_apply, Prog.obind_some, hsize', if_true, Prog.pure_apply]
    · rw [hwant, Nat.zero_min]
  · rcases hown with ⟨-, rfl⟩ | hheads
    · rw [Fat16.capacity, List.length_nil, Nat.zero_mul] at hsize
      omega
    · have hskip : offset % 2 ^ 32 = offset := Nat.mod_eq_of_lt (by omega)
      have hsize' : ¬asI64 ino.size ≤ asI64 offset := by
        rw [asI64_of_lt hoff, asI64_of_lt (by omega)]
        omega
      have hwant := readWant_eq hoff hcount (show ino.size < 2 ^ 63 by omega) (by omega)
      generalize readWant ino.size count offset = want at hwant hfit ⊢
      obtain ⟨tail, -, hchain⟩ := hheads.chain
      obtain ⟨r, fs1, hseek, hro1, hcase, hok⟩ := readSkip_spec l (offset + 1) offset hs hc hchain.path
        hheads.ne_nil hchain.ended hchain.inside (by omega)
      rcases hcase with rfl | ⟨y, rfl, hlt, hpath⟩
      · refine ⟨0, buf, fs1, 0, ?_, hro1, (splice_nothing _ _ _).symm, .inl rfl, Nat.zero_le _, fun hf => ?_⟩
        · simp only [fat16Read, Prog.bind_apply, Prog.get_apply, Prog.obind_some, hsize', if_false, hskip, hseek,
            Prog.pure_apply]
        · exact absurd rfl (hok hf (by omega))
      · have hpos := hs.clusterSize_pos
        have hcapd := capacity_drop fs l offset
        have hsub : ∀ z ∈ l.drop (offset / fs.header.clusterSize), z ≤ fs1.header.lastCluster := by
          intro z hz
          rw [hro1.header]
          exact hchain.inside z (List.mem_of_mem_drop hz)
        have hlen : (l.drop (offset / fs.header.clusterSize)).length < want + CLUSTER_STEPS := by
          have hsteps := hheads.length_lt
          rw [List.length_drop]
          exact Nat.lt_of_le_of_lt (Nat.sub_le _ _) (by omega)
        obtain ⟨t, fs2, k, hrun, hro2, hreads, hle, hq⟩ := readClusters_spec want
          (l.drop (offset / fs.header.clusterSize)) (n := want + CLUSTER_STEPS)
          ⟨offset % fs.header.clusterSize, 0, false, buf⟩ (by rw [hro1.header]; exact hs) (hro1.cacheAgrees hc)
          (hpath.congr fun z _ => hro1.fatAt z) hchain.ended hsub rfl (by rw [hro1.header]; exact Nat.mod_lt _ hpos)
          (by rw [hro1.capacity, hcapd]; simp only; omega) hlen
        rw [hro1.capacity, hcapd] at hle hq
        have hbuf : t.buf = splice buf 0 (fun j => fs.chainByte l (offset + j)) k := by
          rw [hreads.buf]
          apply splice_congr
          intro j _
          rw [hro1.chainByte, chainByte_drop hs hlt]
        have hdone : t.done = k := hreads.done.trans (Nat.zero_add k)
        have hread : fat16Read ino buf count offset fs =
            some (if t.failed && decide (t.done = 0) then ((-1 : ℤ), t.buf) else ((t.done : ℤ), t.buf), fs2) := by
          simp only [fat16Read, Prog.bind_apply, Prog.get_apply, Prog.obind_some, hsize', if_false, hskip, hseek, hwant,
            hrun]
          split <;> rfl
        cases hfail : (t.failed && decide (t.done = 0)) with
        | true =>
          rw [hfail, if_pos rfl] at hread
          obtain ⟨hf, hzero⟩ := Bool.and_eq_true_iff.mp hfail
          have hk0 : k = 0 := by
            rw [← hdone]
            exact of_decide_eq_true hzero
          refine ⟨-1, t.buf, fs2, k, hread, hro1.trans hro2, hbuf, .inr ⟨rfl, hk0⟩, hle, fun hnf => ?_⟩
          rw [(hq (hro1.faults hnf)).2] at hf
          cases hf
        | false =>
          rw [hfail, if_neg (by simp), hdone] at hread
          exact ⟨k, t.buf, fs2, k, hread, hro1.trans hro2, hbuf, .inl rfl, hle,
            fun hnf => ⟨rfl, (hq (hro1.faults hnf)).1⟩⟩

/-- The clusters of a file hold less than `2^32` bytes. -/
theorem Fat16.Owns.capacity_lt {c : ℕ} (h : fs.Owns c l) (hs : fs.header.Sound) (hspc : fs.header.spc ≤ 128) :
    fs.capacity l < 2 ^ 32 := by
  rcases h with ⟨-, rfl⟩ | hheads
  · rw [Fat16.capacity, List.length_nil, Nat.zero_mul]
    norm_num
  · exact hheads.capacity_lt hs hspc

/-- `fat16_read` with clusters of at most 128 sectors: every count fits. -/
theorem fat16Read_spec {ino : Inode} (hs : fs.header.Sound) (hc : fs.CacheAgrees) (hspc : fs.header.spc ≤ 128)
    (hown : fs.Owns ino.ent.cluster l) (hsize : ino.size ≤ fs.capacity l) (buf : Buf) {count offset : ℕ}
    (hoff : offset < 2 ^ 63) (hcount : count < 2 ^ 63) :
    ∃ r buf' fs' k, fat16Read ino buf count offset fs = some ((r, buf'), fs') ∧ fs.OnlyRead fs' ∧
      buf' = splice buf 0 (fun j => fs.chainByte l (offset + j)) k ∧ (r = k ∨ (r = -1 ∧ k = 0)) ∧
      k ≤ min (readWant ino.size count offset) (fs.capacity l - offset) ∧
      (fs.ioFaults = [] → r = k ∧ k = min (readWant ino.size count offset) (fs.capacity l - offset)) := by
  have hcap := hown.capacity_lt hs hspc
  exact fat16Read_run hs hc hown hsize (by omega) buf hoff hcount (by omega)

/-! ### No byte behind the end of the file -/

/-- A read that stays inside the file: it returns at most what is left of the file, and the caller's buffer gets
bytes from before the file's end only. -/
def ReadsInside (fs : Fat16) (ino : Inode) (l : List ℕ) (buf : Buf) (count offset : ℕ) : Prop :=
  ∃ r buf' fs', fat16Read ino buf count offset fs = some ((r, buf'), fs') ∧
    r ≤ max 0 ((ino.size : ℤ) - offset) ∧
    ∃ k, (0 < k → offset + k ≤ ino.size) ∧ buf' = splice buf 0 (fun j => fs.chainByte l (offset + j)) k

/-- The clamp of `fat16_read` works, or there is nothing behind the end of the file. -/
def ReadClamped (fs : Fat16) (ino : Inode) (l : List ℕ) (count offset : ℕ) : Prop :=
  ino.size ≤ offset ∨ offset + count < 2 ^ 63 ∨ ino.size = fs.capacity l

section ReadsInside

variable {ino : Inode} {count offset : ℕ}

theorem readsInside_of_clamped (hs : fs.header.Sound) (hc : fs.CacheAgrees) (hspc : fs.header.spc ≤ 128)
    (hown : fs.Owns ino.ent.cluster l) (hsize : ino.size ≤ fs.capacity l) (buf : Buf) (hoff : offset < 2 ^ 63)
    (hcount : count < 2 ^ 63) (h : ReadClamped fs ino l count offset) : ReadsInside fs ino l buf count offset := by
  obtain ⟨r, buf', fs', k, hrun, -, hbuf, hr, hle, -⟩ := fat16Read_spec hs hc hspc hown hsize buf hoff hcount
  have hk : k ≤ ino.size - offset := by
    unfold readWant at hle
    rcases h with h | h | h
    · rw [if_pos h] at hle
      omega
    · rw [if_pos h] at hle
      split at hle <;> omega
    · omega
  refine ⟨r, buf', fs', hrun, ?_, k, by omega, hbuf⟩
  rcases hr with rfl | ⟨rfl, -⟩ <;> omega

/-- A count whose sum with the offset overflows reads to the end of the chain. -/
theorem not_readsInside (hs : fs.header.Sound) (hc : fs.CacheAgrees) (hspc : fs.header.spc ≤ 128)
    (hown : fs.Owns ino.ent.cluster l) (hsize : ino.size ≤ fs.capacity l) (buf : Buf) (hoff : offset < 2 ^ 63)
    (hcount : count < 2 ^ 63) (hf : fs.NoFaults) (h : ¬ReadClamped fs ino l count offset) :
    ¬ReadsInside fs ino l buf count offset := by
  obtain ⟨r, buf', fs', k, hrun, -, -, -, -, hq⟩ := fat16Read_spec hs hc hspc hown hsize buf hoff hcount
  obtain ⟨rfl, hk⟩ := hq hf.io
  simp only [ReadClamped, not_or] at h
  have hcap := hown.capacity_lt hs hspc
  rw [readWant, if_neg h.1, if_neg h.2.1] at hk
  rintro ⟨r, buf'', fs'', hrun', hr, -⟩
  rw [hrun] at hrun'
  obtain ⟨⟨rfl, -⟩, -⟩ := by simpa only [Option.some.injEq, Prod.mk.injEq] using hrun'
  omega

/-- **Bounded reads.**  Whatever transfers fail, a read stays inside the file unless `offset + count` overflows below
the file's end; then, on a device without faults, it stays inside only if the chain holds nothing more. -/
theorem fat16Read_inside_iff (hs : fs.header.Sound) (hc : fs.CacheAgrees) (hspc : fs.header.spc ≤ 128)
    (hown : fs.Owns ino.ent.cluster l) (hsize : ino.size ≤ fs.capacity l) (buf : Buf) (hoff : offset < 2 ^ 63)
    (hcount : count < 2 ^ 63) :
    (ReadClamped fs ino l count offset → ReadsInside fs ino l buf count offset) ∧
      (fs.NoFaults → (ReadsInside fs ino l buf count offset ↔ ReadClamped fs ino l count offset)) := by
  refine ⟨readsInside_of_clamped hs hc hspc hown hsize buf hoff hcount, fun hf => ⟨fun h => ?_, ?_⟩⟩
  · by_contra hcond
    exact not_readsInside hs hc hspc hown hsize buf hoff hcount hf hcond h
  · exact readsInside_of_clamped hs hc hspc hown hsize buf hoff hcount

end ReadsInside

/-- A root directory with the five-byte file `A` on cluster 2; the rest of the disk holds old data. -/
def fiveBytes (old : UInt8) : Fat16 :=
  smallVolume (fatOf [2]) (sectorOf [fileEntry [0x41] 2 5]) fun lba j => if lba = 3 ∧ j < 5 then 0x41 else old

/-- The inode of `A`. -/
def fiveInode : Inode := Inode.ofEntry (fileEntry [0x41] 2 5) ⟨2, 0⟩

theorem fiveBytes_owns (old : UInt8) : (fiveBytes old).Owns fiveInode.ent.cluster [2] := by
  have hcluster : fiveInode.ent.cluster = 2 := by decide
  rw [hcluster]
  have hin : ∀ x ∈ [2], x ≤ smallHeader.lastCluster := by decide
  have hend : (fiveBytes old).fatAt 2 = 0xFFF8 := by
    rw [fiveBytes, smallVolume_fatAt _ _ _ (by omega)]
    decide
  exact .inr ⟨by simp, 0xFFF8, by decide, ⟨rfl, by decide, hend⟩, by decide, by simp, hin⟩

theorem fiveBytes_mounted (old : UInt8) : (fiveBytes old).Mounted := smallVolume_mounted _ _ _

theorem fat16Read_inside_iff_fiveBytes : ReadsInside (fiveBytes 0x53) fiveInode [2] (fun _ => 0) 100 1 :=
  (fat16Read_inside_iff (fiveBytes_mounted _).sound (fiveBytes_mounted _).cache (by decide) (fiveBytes_owns _)
    (by decide) _ (by decide) (by decide)).1 (.inr (.inl (by decide)))

/-- A read of the largest count at offset 1 delivers the cluster's old data. -/
theorem not_fat16Read_inside_fiveBytes :
    (fiveBytes 0x53).Owns fiveInode.ent.cluster [2] ∧
      ¬ReadsInside (fiveBytes 0x53) fiveInode [2] (fun _ => 0) (2 ^ 63 - 1) 1 := by
  refine ⟨fiveBytes_owns _, not_readsInside (fiveBytes_mounted _).sound (fiveBytes_mounted _).cache (by decide)
    (fiveBytes_owns _) (by decide) _ (by decide) (by decide) ⟨rfl, rfl⟩ ?_⟩
  rintro (h | h | h)
  · revert h
    decide
  · omega
  · revert h
    decide

end LizardOs.Fat
