import LizardOs.Fat.ChainInside
import Mathlib.Data.List.TFAE

/-!
# Chains that leave the volume

The converse of `Fat16.ChainInside.callsInside`: where the links from a cluster lead to a number that
`fat16_cluster_valid` lets pass and that is no cluster of the volume, a scan, a read and a write that come to it transfer a
sector behind the end.  So these calls stay inside the volume, whatever transfers fail, exactly when the chain is inside
(`scan_inside_iff`, `read_inside_iff`, `write_inside_iff`), a walk does so for all contents of the directory
(`walk_inside_iff`), and so do all the calls that start there (`calls_inside_iff`); `inside_tfae` puts them together.
-/

namespace LizardOs.Fat

open LizardOs.Lib

variable {fs fs' : Fat16} {c t s : ℕ} {l : List ℕ} {α : Type}

/-! ### Where a chain leaves -/

/-- A path inside the volume to a number that is no cluster of it. -/
structure Fat16.Strays (fs : Fat16) (c : ℕ) (l : List ℕ) (t : ℕ) : Prop where
  path : Path fs.linkAt fat16ClusterValid c l t
  inside : ∀ d ∈ l, d ≤ fs.header.totalClusters + 1
  valid : fat16ClusterValid t = true
  outside : fs.header.totalClusters + 1 < t

/-- The rest of such a path. -/
theorem Fat16.Strays.tail {a : ℕ} (hst : fs.Strays c (a :: l) t) : fs.Strays (fs.linkAt c) l t := by
  obtain ⟨⟨rfl, -, hpath⟩, hin, ht, hfar⟩ := hst
  exact ⟨hpath, fun d hd => hin d (List.mem_cons_of_mem _ hd), ht, hfar⟩

theorem Fat16.Strays.ne_zero (hst : fs.Strays c l t) : c ≠ 0 := by
  rintro rfl
  cases hst.path.ok_head hst.valid

/-- A chain that is not inside the volume leaves it after a bounded number of links. -/
theorem Fat16.strays_of_not_inside (hout : ¬fs.ChainInside c) : ∃ l t, fs.Strays c l t ∧
    l.length ≤ FAT16_CLUSTER_MAX + 1 := by
  simp only [ChainInside, not_forall] at hout
  obtain ⟨l, t, hpath, ht, hfar⟩ := hout
  obtain ⟨m, hm, hnd⟩ := hpath.exists_nodup
  obtain ⟨m', z, hpath', hpre, hin, hz, hzfar⟩ := hm.first_exit (P := (· ≤ fs.header.totalClusters + 1)) ht hfar
  refine ⟨m', z, ⟨hpath', hin, hz, Nat.lt_of_not_le hzfar⟩, ?_⟩
  exact nodup_length_le (hnd.sublist hpre.sublist) fun d hd =>
    Nat.lt_succ_of_le (valid_bounds (hpath'.ok_of_mem hd)).2

/-- The last sector of the cluster number `t`. -/
def FatHeader.lastSector (h : FatHeader) (t : ℕ) : ℕ := h.clusterToLba t + (h.spc - 1)

theorem exists_byte_ne (x : UInt8) : ∃ b : UInt8, b ≠ x ∧ b ≠ 0 := by
  by_cases hx : x = 1
  · exact ⟨2, by rw [hx]; decide, by decide⟩
  · exact ⟨1, Ne.symm hx, by decide⟩

/-- No sector from the root directory on holds a zero, and so no end marker. -/
def Fat16.Unended (fs : Fat16) : Prop := ∀ s, fs.header.rootDirLba ≤ s → ∀ j, fs.disk s j ≠ 0

theorem Fat16.Unended.setSector (hdata : fs.Unended) {buf : Buf} (hbuf : ∀ j, buf j ≠ 0) :
    (fs.setSector s buf).Unended := by
  intro s' hs'
  by_cases hsame : s' = s
  · rwa [hsame, Fat16.setSector_disk_self]
  · rw [Fat16.setSector_disk_ne hsame]
    exact hdata s' hs'

section Strays

variable (hg : fs.header.Geometry) (hst : fs.Strays c l t)
include hg hst

/-- The sectors of the clusters on the way lie in front of the sector it leads to. -/
theorem Fat16.Strays.sectors {d : ℕ} (hd : d ∈ l) :
    fs.header.clusterToLba d + fs.header.spc ≤ fs.header.lastSector t := by
  have hspc := hg.cluster
  have hlast := hg.sectors d (valid_bounds (hst.path.ok_of_mem hd)).1 (hst.inside d hd) (fs.header.spc - 1) (by omega)
  have hbehind := hg.behind hst.outside
  rw [FatHeader.lastSector]
  omega

theorem Fat16.Strays.behind : fs.header.totalSectors ≤ fs.header.lastSector t := hg.behind hst.outside

/-- What that sector holds makes no difference to the volume. -/
theorem Fat16.Strays.sameInside (hf : fs.NoFaults) (buf : Buf) :
    fs.header.SameInside fs (fs.setSector (fs.header.lastSector t) buf) := by
  have hbehind := hst.behind hg
  refine ⟨rfl, rfl, rfl, fun s hs => (Fat16.setSector_disk_ne (show s ≠ _ by omega) buf).symm, ?_, rfl⟩
  rw [Fat16.setSector, hf.io]
  exact .nil

/-- Nor does it to the way there. -/
theorem Fat16.Strays.setSector (hf : fs.NoFaults) (buf : Buf) :
    (fs.setSector (fs.header.lastSector t) buf).Strays c l t where
  path := by
    refine hst.path.congr fun d hd => ?_
    obtain ⟨hfats, hin⟩ := hg.entries d (valid_bounds (hst.path.ok_of_mem hd)).1 (hst.inside d hd)
    exact (hst.sameInside hg hf buf).linkAt hg rfl hfats hin
  inside := hst.inside
  valid := hst.valid
  outside := hst.outside

/-- **A call that shows what the sector holds does not stay inside.**  Where no sector from the root directory on holds a
zero, none will. -/
theorem Fat16.Strays.not_staysInside (hf : fs.NoFaults) {m : Fs α} (shows : α → UInt8)
    (hrun : ∀ fs' : Fat16, fs'.header = fs.header → fs'.NoFaults → fs'.Strays c l t → (fs.Unended → fs'.Unended) →
      ∃ a, m fs' = some (a, fs') ∧ shows a = fs'.disk (fs.header.lastSector t) 0) : ¬fs.StaysInside m := by
  intro hstays
  obtain ⟨b, hb, hb0⟩ := exists_byte_ne (fs.disk (fs.header.lastSector t) 0)
  have halike := hstays.alike _ (hst.sameInside hg hf fun _ => b)
  obtain ⟨a, hfirst, ha⟩ := hrun fs rfl hf hst id
  obtain ⟨a', hsecond, ha'⟩ := hrun (fs.setSector (fs.header.lastSector t) fun _ => b) rfl
    (Fat16.setSector_noFaults hf _ _) (hst.setSector hg hf _) fun hdata => hdata.setSector fun _ => hb0
  rw [hfirst, hsecond] at halike
  cases halike with
  | answer _ =>
    rw [ha', Fat16.setSector_disk_self] at ha
    exact hb ha

end Strays

/-! ### Scans -/

/-- The callback that goes on up to a sector and gives the first byte it is shown there. -/
def stopAt (s : ℕ) : SlotCb UInt8 := fun c0 loc ctx => pure (if loc.lba = s then (1, c0) else (0, ctx))

theorem contained_stopAt (h : FatHeader) (s : ℕ) : (stopAt s).Contained h := fun _ _ _ _ _ _ => .pure trivial

theorem scanSector_stopAt {lba : ℕ} (hne : lba ≠ s) (buf : Buf) (ctx : UInt8) (n : ℕ) : ∀ i,
    scanSector (stopAt s) buf lba n i ctx fs = some ((0, ctx), fs) := by
  induction n with
  | zero => exact fun i => rfl
  | succ n ih =>
    intro i
    simp only [scanSector, stopAt, if_neg hne, Prog.bind_apply, Prog.pure_apply, Prog.obind_some, ne_eq, not_true_eq_false,
      if_false]
    exact ih (i + 1)

theorem scanSectors_before (hio : fs.ioFaults = []) (per : ℕ) (ctx : UInt8) (n : ℕ) : ∀ lba, lba + n ≤ s →
    scanSectors (stopAt s) per n lba ctx fs = some ((0, ctx), fs) := by
  induction n with
  | zero => exact fun lba _ => rfl
  | succ n ih =>
    intro lba hlba
    simp only [scanSectors, Prog.bind_apply, blkDevRead_io hio, Prog.obind_some,
      scanSector_stopAt (show lba ≠ s by omega), ne_eq, not_true_eq_false, if_false]
    exact ih (lba + 1) (by omega)

theorem scanSectors_last (hio : fs.ioFaults = []) {per : ℕ} (hper : 0 < per) (ctx : UInt8) (n : ℕ) : ∀ lba, lba + n = s →
    scanSectors (stopAt s) per (n + 1) lba ctx fs = some ((1, fs.disk s 0), fs) := by
  obtain ⟨per, rfl⟩ : ∃ k, per = k + 1 := ⟨per - 1, by omega⟩
  induction n with
  | zero =>
    rintro lba rfl
    simp only [scanSectors, scanSector, stopAt, Prog.bind_apply, blkDevRead_io hio, Prog.obind_some, Nat.add_zero,
      if_true, Prog.pure_apply, Nat.zero_mul, ne_eq, one_ne_zero, not_false_eq_true]
  | succ n ih =>
    intro lba hlba
    rw [scanSectors]
    simp only [Prog.bind_apply, blkDevRead_io hio, Prog.obind_some, scanSector_stopAt (show lba ≠ s by omega), ne_eq,
      not_true_eq_false, if_false]
    exact ih (lba + 1) (by omega)

/-- The scan comes to the last sector of the cluster. -/
theorem scanClusters_strays (hio : fs.ioFaults = []) (hg : fs.header.Geometry) (l : List ℕ) : ∀ {c n : ℕ} (ctx : UInt8),
    fs.Strays c l t → l.length < n →
    scanClusters (stopAt (fs.header.lastSector t)) n c ctx fs = some ((1, fs.disk (fs.header.lastSector t) 0), fs) := by
  have hspc := hg.cluster
  induction l with
  | nil =>
    intro c n ctx hst hn
    obtain ⟨n, rfl⟩ : ∃ m, n = m + 1 := ⟨n - 1, by rw [List.length_nil] at hn; omega⟩
    obtain rfl := path_nil.mp hst.path
    have hper : 0 < fs.header.perSector := by
      rw [FatHeader.perSector, hg.sector]
      decide
    have hsectors := scanSectors_last hio hper ctx (fs.header.spc - 1) (fs.header.clusterToLba c) rfl
    rw [Nat.sub_add_cancel hspc] at hsectors
    rw [FatHeader.lastSector]
    simp only [scanClusters, hst.valid, if_true, Prog.bind_apply, Prog.get_apply, Prog.obind_some, hsectors, ne_eq,
      one_ne_zero, not_false_eq_true, Prog.pure_apply]
  | cons a l ih =>
    intro c n ctx hst hn
    obtain ⟨n, rfl⟩ : ∃ m, n = m + 1 := ⟨n - 1, by rw [List.length_cons] at hn; omega⟩
    obtain rfl := hst.path.head
    have hsectors := scanSectors_before hio fs.header.perSector ctx fs.header.spc (fs.header.clusterToLba c)
      (hst.sectors hg List.mem_cons_self)
    simp only [scanClusters, hst.path.2.1, if_true, Prog.bind_apply, Prog.get_apply, Prog.obind_some, hsectors, ne_eq,
      not_true_eq_false, if_false, fat16NextCluster_io hio]
    exact ih ctx hst.tail (Nat.lt_of_succ_lt_succ hn)

/-! ### Walks -/

/-- The callback of a walk that does so. -/
def walkTo (s : ℕ) : DirCb UInt8 := fun e _ loc ctx => pure (if loc.lba = s then (1, e.first) else (0, ctx))

theorem contained_walkTo (h : FatHeader) (s : ℕ) : (walkTo s).Contained h := fun _ _ _ _ _ _ _ => .pure trivial

/-- The walk goes on. -/
structure GoesOn (w : Walk UInt8) : Prop where
  code : w.code = 0
  ended : w.ended = false

theorem walkSector_walkTo (fs : Fat16) {lba : ℕ} (hne : lba ≠ s) {buf : Buf} (hbuf : ∀ j, buf j ≠ 0) (n : ℕ) : ∀ i w, GoesOn w →
    ∃ w', walkSector (walkTo s) buf lba n i w fs = some (w', fs) ∧ GoesOn w' := by
  induction n with
  | zero => exact fun i w hw => ⟨w, rfl, hw⟩
  | succ n ih =>
    intro i w hw
    have hmark : ¬(Fat16Directory.ofBytes fun j => buf (i * FAT16_DIR_ENTRY_SIZE + j)).first = FAT16_DIR_ENTRY_END :=
      hbuf _
    obtain ⟨w', hrun, hw'⟩ := ih (i + 1) { w with offset := (w.offset + FAT16_DIR_ENTRY_SIZE) % 2 ^ 32 } ⟨hw.code, hw.ended⟩
    refine ⟨w', ?_, hw'⟩
    simp only [walkSector, if_neg hmark, walkTo, if_neg hne, Prog.bind_apply, Prog.pure_apply, Prog.obind_some, ne_eq,
      not_true_eq_false, if_false]
    exact hrun

theorem walkSectors_before (hio : fs.ioFaults = []) (hdata : fs.Unended) (per n : ℕ) : ∀ lba w,
    fs.header.rootDirLba ≤ lba → lba + n ≤ s → GoesOn w →
    ∃ w', walkSectors (walkTo s) per n lba w fs = some (w', fs) ∧ GoesOn w' := by
  induction n with
  | zero => exact fun lba w _ _ hw => ⟨w, rfl, hw⟩
  | succ n ih =>
    intro lba w hroot hlba hw
    obtain ⟨w₁, hsector, hw₁⟩ := walkSector_walkTo fs (show lba ≠ s by omega) (hdata lba hroot) per 0 w hw
    obtain ⟨w₂, hrest, hw₂⟩ := ih (lba + 1) w₁ (by omega) (by omega) hw₁
    refine ⟨w₂, ?_, hw₂⟩
    simp only [walkSectors, hw.ended, Bool.false_eq_true, if_false, Prog.bind_apply, blkDevRead_io hio, Prog.obind_some,
      hsector, hw₁.code, ne_eq, not_true_eq_false, hrest]

theorem walkSectors_last (hio : fs.ioFaults = []) (hdata : fs.Unended) {per : ℕ} (hper : 0 < per) (n : ℕ) : ∀ lba w,
    fs.header.rootDirLba ≤ lba → lba + n = s → GoesOn w →
    ∃ w', walkSectors (walkTo s) per (n + 1) lba w fs = some (w', fs) ∧ w'.code = 1 ∧ w'.ctx = fs.disk s 0 := by
  obtain ⟨per, rfl⟩ : ∃ k, per = k + 1 := ⟨per - 1, by omega⟩
  induction n with
  | zero =>
    rintro lba w hroot rfl hw
    have hmark : ¬(Fat16Directory.ofBytes fun j => fs.disk lba (0 * FAT16_DIR_ENTRY_SIZE + j)).first =
        FAT16_DIR_ENTRY_END := hdata lba hroot _
    refine ⟨{ w with code := 1, ctx := fs.disk lba 0 }, ?_, rfl, rfl⟩
    simp only [walkSectors, hw.ended, Bool.false_eq_true, if_false, Prog.bind_apply, blkDevRead_io hio, Prog.obind_some,
      walkSector, if_neg hmark, walkTo, Nat.add_zero, if_true, Prog.pure_apply, ne_eq, one_ne_zero, not_false_eq_true]
    rfl
  | succ n ih =>
    intro lba w hroot hlba hw
    obtain ⟨w₁, hsector, hw₁⟩ := walkSector_walkTo fs (show lba ≠ s by omega) (hdata lba hroot) (per + 1) 0 w hw
    obtain ⟨w', hrest, hcode, hctx⟩ := ih (lba + 1) w₁ (by omega) (by omega) hw₁
    refine ⟨w', ?_, hcode, hctx⟩
    rw [walkSectors]
    simp only [hw.ended, Bool.false_eq_true, if_false, Prog.bind_apply, blkDevRead_io hio, Prog.obind_some, hsector,
      hw₁.code, ne_eq, not_true_eq_false, hrest]

/-- The walk comes to the last sector of the cluster, unless it meets an end marker. -/
theorem walkClusters_strays (hio : fs.ioFaults = []) (hdata : fs.Unended) (hg : fs.header.Geometry) (l : List ℕ) :
    ∀ {c n : ℕ} {w : Walk UInt8}, fs.Strays c l t → GoesOn w → l.length < n →
    ∃ w', walkClusters (walkTo (fs.header.lastSector t)) n c w fs = some (w', fs) ∧
      w'.ctx = fs.disk (fs.header.lastSector t) 0 := by
  have hspc := hg.cluster
  induction l with
  | nil =>
    intro c n w hst hw hn
    obtain ⟨n, rfl⟩ : ∃ m, n = m + 1 := ⟨n - 1, by rw [List.length_nil] at hn; omega⟩
    obtain rfl := path_nil.mp hst.path
    have hper : 0 < fs.header.perSector := by
      rw [FatHeader.perSector, hg.sector]
      decide
    obtain ⟨w', hsectors, hcode, hctx⟩ := walkSectors_last hio hdata hper (fs.header.spc - 1) (fs.header.clusterToLba c) w
      (FatHeader.rootDir_le_clusterToLba (valid_bounds hst.valid).1) rfl hw
    rw [Nat.sub_add_cancel hspc] at hsectors
    refine ⟨w', ?_, hctx⟩
    rw [FatHeader.lastSector]
    simp only [walkClusters, hst.valid, hw.ended, Bool.not_false, Bool.and_self, if_true, Prog.bind_apply, Prog.get_apply,
      Prog.obind_some, hsectors, hcode, ne_eq, one_ne_zero, not_false_eq_true, Prog.pure_apply]
  | cons a l ih =>
    intro c n w hst hw hn
    obtain ⟨n, rfl⟩ : ∃ m, n = m + 1 := ⟨n - 1, by rw [List.length_cons] at hn; omega⟩
    obtain rfl := hst.path.head
    obtain ⟨w₁, hsectors, hw₁⟩ := walkSectors_before hio hdata fs.header.perSector fs.header.spc
      (fs.header.clusterToLba c) w (FatHeader.rootDir_le_clusterToLba (valid_bounds hst.path.2.1).1)
      (hst.sectors hg List.mem_cons_self) hw
    obtain ⟨w', hrest, hctx⟩ := ih hst.tail hw₁ (Nat.lt_of_succ_lt_succ hn)
    refine ⟨w', ?_, hctx⟩
    simp only [walkClusters, hst.path.2.1, hw.ended, Bool.not_false, Bool.and_self, if_true, Prog.bind_apply,
      Prog.get_apply, Prog.obind_some, hsectors, hw₁.code, ne_eq, not_true_eq_false, if_false, fat16NextCluster_io hio,
      hrest]

/-! ### Offsets in a chain -/

/-- The positioning loop follows the links that are there. -/
theorem readSkip_path (hio : fs.ioFaults = []) {cs r : ℕ} (hr : r < cs) (ht : fat16ClusterValid t = true) (l : List ℕ) :
    ∀ {c n : ℕ}, Path fs.linkAt fat16ClusterValid c l t → l.length < n →
      readSkip cs n c (l.length * cs + r) fs = some (some (t, r), fs) := by
  induction l with
  | nil =>
    intro c n hpath hn
    obtain ⟨n, rfl⟩ : ∃ m, n = m + 1 := ⟨n - 1, by rw [List.length_nil] at hn; omega⟩
    rw [path_nil] at hpath
    rw [List.length_nil, Nat.zero_mul, Nat.zero_add, readSkip, if_neg (Nat.not_le.mpr hr), hpath, Prog.pure_apply]
  | cons a l ih =>
    intro c n hpath hn
    obtain ⟨n, rfl⟩ : ∃ m, n = m + 1 := ⟨n - 1, by rw [List.length_cons] at hn; omega⟩
    obtain ⟨rfl, -, hpath⟩ := hpath
    rw [List.length_cons] at hn ⊢
    have hgo : cs ≤ (l.length + 1) * cs + r := by
      rw [Nat.succ_mul]
      omega
    have hrest : (l.length + 1) * cs + r - cs = l.length * cs + r := by
      rw [Nat.succ_mul]
      omega
    rw [readSkip, if_pos hgo, Prog.bind_of_eq (fat16NextCluster_io hio c), if_pos (hpath.ok_head ht), hrest]
    exact ih hpath (by omega)

/-- So does the positioning loop of a write. -/
theorem writeSeek_path (hf : fs.NoFaults) {cs r : ℕ} (hr : r < cs) (ht : fat16ClusterValid t = true)
    (l : List ℕ) : ∀ {c i n : ℕ}, Path fs.linkAt fat16ClusterValid c l t → (i + l.length + 1) * cs < 2 ^ 32 →
      l.length < n → writeSeek cs ((i + l.length) * cs + r) n ((i + 1) * cs) c fs = some (t, fs) := by
  induction l with
  | nil =>
    intro c i n hpath _ hn
    obtain ⟨n, rfl⟩ : ∃ m, n = m + 1 := ⟨n - 1, by rw [List.length_nil] at hn; omega⟩
    rw [path_nil] at hpath
    have hthere : ¬(i + 1) * cs ≤ (i + 0) * cs + r := by
      rw [Nat.succ_mul, Nat.add_zero]
      omega
    rw [List.length_nil, writeSeek, if_neg hthere, hpath, Prog.pure_apply]
  | cons a l ih =>
    intro c i n hpath hcs hn
    obtain ⟨n, rfl⟩ : ∃ m, n = m + 1 := ⟨n - 1, by rw [List.length_cons] at hn; omega⟩
    obtain ⟨rfl, -, hpath⟩ := hpath
    rw [List.length_cons] at hcs hn ⊢
    have hlen : i + (l.length + 1) = i + 1 + l.length := by omega
    rw [hlen] at hcs ⊢
    have hgo : (i + 1) * cs ≤ (i + 1 + l.length) * cs + r :=
      (Nat.mul_le_mul_right cs (Nat.le_add_right (i + 1) l.length)).trans (Nat.le_add_right _ r)
    have hvalid := hpath.ok_head ht
    have hstep : chainStep c fs = some (fs.linkAt c, fs) := by
      simp only [chainStep, Prog.bind_apply, fat16NextCluster_link hf, Prog.obind_some, hvalid, if_true, Prog.pure_apply]
    have hpos : ((i + 1) * cs + cs) % 2 ^ 32 = (i + 1 + 1) * cs := by
      rw [← Nat.succ_mul, Nat.mod_eq_of_lt]
      exact Nat.lt_of_le_of_lt (Nat.mul_le_mul_right cs (by omega)) hcs
    have hne : fs.linkAt c ≠ 0 := by
      intro hzero
      rw [hzero] at hvalid
      cases hvalid
    rw [writeSeek, if_pos hgo, Prog.bind_of_eq hstep, if_neg hne, hpos]
    exact ih hpath hcs (by omega)

/-- The sector loop skips whole sectors without a transfer. -/
theorem readSectors_skip (ss : ℕ) {count : ℕ} (t : Transfer) (hdone : t.done < count) (n m : ℕ) : ∀ lba,
    readSectors ss count (m + n) lba { t with skip := m * ss } = readSectors ss count n (lba + m) { t with skip := 0 } := by
  induction m with
  | zero =>
    intro lba
    rw [Nat.zero_add, Nat.zero_mul, Nat.add_zero]
  | succ m ih =>
    intro lba
    have hskip : ss ≤ (m + 1) * ss := Nat.le_mul_of_pos_left ss m.succ_pos
    have hrest : (m + 1) * ss - ss = m * ss := by
      rw [Nat.succ_mul, Nat.add_sub_cancel]
    rw [Nat.succ_add, readSectors, if_pos hdone, if_pos hskip]
    simp only [hrest]
    rw [ih, Nat.succ_add_eq_add_succ]

/-- The sector loop takes one byte from the last sector of a cluster. -/
theorem readSectors_last (hio : fs.ioFaults = []) (lba m : ℕ) (buf : Buf) :
    ∃ t', readSectors 512 1 (m + 1) lba ⟨m * 512, 0, false, buf⟩ fs = some (t', fs) ∧ t'.failed = false ∧ t'.done = 1 ∧
      t'.buf 0 = fs.disk (lba + m) 0 := by
  have hskip := readSectors_skip 512 ⟨0, 0, false, buf⟩ Nat.zero_lt_one 1 m lba
  have hbyte : splice buf 0 (fun j => fs.disk (lba + m) (0 + j)) 1 0 = fs.disk (lba + m) 0 := splice_zero Nat.zero_lt_one
  refine ⟨⟨0, 1, false, splice buf 0 (fun j => fs.disk (lba + m) (0 + j)) 1⟩, ?_, rfl, rfl, hbyte⟩
  rw [hskip, readSectors, if_pos Nat.zero_lt_one, if_neg (show ¬512 ≤ 0 by omega),
    Prog.bind_of_eq (blkDevRead_io hio (lba + m))]
  rfl

/-- The offset of the last sector of the last cluster of a path. -/
def FatHeader.strayOffset (h : FatHeader) (l : List ℕ) : ℕ := l.length * h.clusterSize + (h.spc - 1) * 512

/-- With clusters of at most 64 KiB the offset has no more than 32 bits. -/
theorem FatHeader.strayOffset_lt (hg : fs.header.Geometry) (hspc : fs.header.spc ≤ 128)
    (hlen : l.length ≤ FAT16_CLUSTER_MAX + 1) : (l.length + 1) * fs.header.clusterSize < 2 ^ 32 := by
  rw [hg.clusterSize_eq]
  rw [FAT16_CLUSTER_MAX] at hlen
  calc (l.length + 1) * (fs.header.spc * 512) ≤ 65521 * (128 * 512) := Nat.mul_le_mul (by omega) (by omega)
    _ < 2 ^ 32 := by decide

section Offset

variable (hg : fs.header.Geometry) (hsmall : (l.length + 1) * fs.header.clusterSize < 2 ^ 32)
include hg

theorem FatHeader.lastSector_lt_clusterSize : (fs.header.spc - 1) * 512 < fs.header.clusterSize := by
  have hspc := hg.cluster
  rw [hg.clusterSize_eq]
  omega

include hsmall

theorem FatHeader.strayOffset_mod : fs.header.strayOffset l % 2 ^ 32 = fs.header.strayOffset l := by
  have hlt := FatHeader.lastSector_lt_clusterSize hg
  rw [Nat.succ_mul] at hsmall
  rw [strayOffset]
  exact Nat.mod_eq_of_lt (by omega)

/-! ### Reads and writes -/

/-- **A byte read at that offset** is the first one of the last sector of the cluster, whatever its number is. -/
theorem fat16Read_strays (hf : fs.NoFaults) (hst : fs.Strays c l t) {ino : Inode} (hcluster : ino.ent.cluster = c)
    (hsize : ino.size = fs.header.strayOffset l + 1) (buf : Buf) :
    ∃ a, fat16Read ino buf 1 (fs.header.strayOffset l) fs = some (a, fs) ∧
      a.2 0 = fs.disk (fs.header.lastSector t) 0 := by
  have hoffset := FatHeader.strayOffset_mod hg hsmall
  have hlast := FatHeader.lastSector_lt_clusterSize hg
  have hlt : fs.header.strayOffset l < 2 ^ 32 := by
    rw [← hoffset]
    exact Nat.mod_lt _ (by decide)
  have hinside : ¬asI64 ino.size ≤ asI64 (fs.header.strayOffset l) := by
    rw [hsize, asI64_of_lt (by omega), asI64_of_lt (by omega)]
    omega
  have hwhole : ¬asI64 ino.size < asI64 (fs.header.strayOffset l + 1) := by
    rw [hsize]
    exact lt_irrefl _
  have hseek : readSkip fs.header.clusterSize (fs.header.strayOffset l + 1) ino.ent.cluster (fs.header.strayOffset l) fs =
      some (some (t, (fs.header.spc - 1) * 512), fs) := by
    rw [hcluster]
    refine readSkip_path hf.io hlast hst.valid l hst.path ?_
    have hlen := Nat.le_mul_of_pos_right l.length (show 0 < fs.header.clusterSize by omega)
    rw [FatHeader.strayOffset]
    omega
  obtain ⟨t', hsectors, hok, hdone, hbyte⟩ :=
    readSectors_last hf.io (fs.header.clusterToLba t) (fs.header.spc - 1) buf
  rw [Nat.sub_add_cancel hg.cluster] at hsectors
  have hbps : fs.header.bps = 512 := hg.sector
  have hdata : ∀ n, readClusters 1 (n + 2) t ⟨(fs.header.spc - 1) * 512, 0, false, buf⟩ fs = some (t', fs) := by
    intro n
    simp only [readClusters, hst.valid, Nat.zero_lt_one, decide_true, Bool.and_self, if_true, Prog.bind_apply,
      Prog.get_apply, Prog.obind_some, hbps, hsectors, hok, Bool.false_eq_true, if_false, fat16NextCluster_io hf.io, hdone,
      Nat.lt_irrefl, decide_false, Bool.and_false, Prog.pure_apply]
  obtain ⟨n, hsteps⟩ : ∃ n, 1 + CLUSTER_STEPS = n + 2 := ⟨CLUSTER_STEPS - 1, by decide⟩
  refine ⟨(1, t'.buf), ?_, hbyte⟩
  rw [fat16Read]
  simp only [Prog.bind_apply, Prog.get_apply, Prog.obind_some, hinside, hwhole, if_false, hoffset, hseek, hsteps, hdata,
    hok, hdone, Bool.false_and, Bool.false_eq_true, Prog.pure_apply, Nat.cast_one]

/-- **A byte written at that offset** goes into the last sector of the cluster. -/
theorem fat16Write_strays (hf : fs.NoFaults) (hro : fs.readOnly = false) (hst : fs.Strays c l t) (now : DosStamp)
    {ino : Inode} (hdir : isDir ino.ent = false) (hcluster : ino.ent.cluster = c)
    (hloc : ino.loc.lba < fs.header.totalSectors) (b : UInt8) :
    ∃ r fs', fat16Write now ino (fun _ => b) 1 (fs.header.strayOffset l) fs = some (r, fs') ∧
      fs'.disk (fs.header.lastSector t) 0 = b := by
  have hoffset := FatHeader.strayOffset_mod hg hsmall
  have hlast := FatHeader.lastSector_lt_clusterSize hg
  have hbehind := hst.behind hg
  have hone : 1 * fs.header.clusterSize < 2 ^ 32 :=
    Nat.lt_of_le_of_lt (Nat.mul_le_mul_right _ (Nat.succ_pos _)) hsmall
  have hfirst : ino.ent.cluster ≠ 0 := by
    rw [hcluster]
    exact hst.ne_zero
  have hne : t ≠ 0 := Nat.pos_iff_ne_zero.mp (Nat.lt_of_le_of_lt (Nat.zero_le _) hst.outside)
  have hin : fs.header.strayOffset l % 2 ^ 32 % fs.header.clusterSize = (fs.header.spc - 1) * 512 := by
    rw [hoffset, FatHeader.strayOffset, Nat.add_comm, Nat.add_mul_mod_self_right, Nat.mod_eq_of_lt hlast]
  have hlen : l.length < 2 ^ 32 :=
    Nat.lt_of_lt_of_le (Nat.lt_succ_self _)
      ((Nat.le_mul_of_pos_right _ (show 0 < fs.header.clusterSize by omega)).trans hsmall.le)
  have hseek : writeSeek fs.header.clusterSize (fs.header.strayOffset l % 2 ^ 32) (2 ^ 32)
      (fs.header.clusterSize % 2 ^ 32) ino.ent.cluster fs = some (t, fs) := by
    have hpath := writeSeek_path hf hlast hst.valid l (i := 0) (n := 2 ^ 32) hst.path (by rwa [Nat.zero_add]) hlen
    rw [Nat.zero_add, Nat.zero_add, Nat.one_mul] at hpath
    rw [Nat.one_mul] at hone
    rwa [hoffset, Nat.mod_eq_of_lt hone, hcluster]
  exact fat16Write_stray hf hro hg now hdir hfirst hne hin hseek
    (by rw [← FatHeader.lastSector]; omega) b

end Offset

/-! ### When the calls stay inside -/

/-- The volume with no fault to come. -/
def Fat16.quiet (fs : Fat16) : Fat16 := fs.withOutcomes [] []

theorem Fat16.quiet_noFaults (fs : Fat16) : fs.quiet.NoFaults := ⟨rfl, rfl⟩

theorem Fat16.quiet_header (fs : Fat16) : fs.quiet.header = fs.header := rfl

theorem Fat16.Strays.quiet (hst : fs.Strays c l t) : fs.quiet.Strays c l t :=
  ⟨hst.path, hst.inside, hst.valid, hst.outside⟩

/-- Calls that start in a chain inside the volume stay inside under all outcomes. -/
theorem Fat16.ChainInside.calls (hin : fs.ChainInside c) (hg : fs.header.Geometry) (io : List (IoOp → ℕ → Bool))
    (alloc : List Bool) : (fs.withOutcomes io alloc).CallsInside c :=
  Fat16.ChainInside.callsInside (show (fs.withOutcomes io alloc).header.Geometry from hg) (hin.withOutcomes io alloc)

/-- A scan along the chain leaves the volume. -/
theorem Fat16.Strays.scan_not_staysInside (hst : fs.Strays c l t) (hlen : l.length ≤ FAT16_CLUSTER_MAX + 1)
    (hg : fs.header.Geometry) (hf : fs.NoFaults) :
    ¬fs.StaysInside (fat16DirScan c (stopAt (fs.header.lastSector t)) 0) := by
  refine hst.not_staysInside hg hf Prod.snd fun fs' hheader hf' hst' _ => ?_
  rw [← hheader] at hg ⊢
  have hscan := scanClusters_strays hf'.io hg l 0 hst' (n := CLUSTER_STEPS) (Nat.lt_of_le_of_lt hlen (by decide))
  refine ⟨(1, fs'.disk (fs'.header.lastSector t) 0), ?_, rfl⟩
  rw [fat16DirScan, Prog.bind_apply, Prog.get_apply, Prog.obind_some, if_neg hst.ne_zero]
  exact hscan

/-- **When scans stay inside the volume.**  With a sound geometry and whatever transfers and allocations fail,
`fat16_dir_scan` stays inside for every callback that does exactly when the chain is inside. -/
theorem scan_inside_iff (hg : fs.header.Geometry) (c : ℕ) :
    (∀ io alloc (κ : Type) (slot : SlotCb κ) (ctx : κ), slot.Contained fs.header →
      (fs.withOutcomes io alloc).StaysInside (fat16DirScan c slot ctx)) ↔ fs.ChainInside c := by
  constructor
  · intro h
    by_contra hout
    obtain ⟨l, t, hst, hlen⟩ := Fat16.strays_of_not_inside hout
    exact hst.quiet.scan_not_staysInside hlen hg fs.quiet_noFaults
      (h [] [] UInt8 (stopAt (fs.header.lastSector t)) 0 (contained_stopAt _ _))
  · intro hin io alloc κ slot ctx hslot
    exact (hin.calls hg io alloc).dirScan κ slot ctx hslot

/-- The volume with other sectors behind its tables. -/
def Fat16.withData (fs : Fat16) (data : ℕ → Buf) : Fat16 :=
  { fs with disk := fun s => if s < fs.header.rootDirLba then fs.disk s else data s }

theorem Fat16.linkAt_withData (hg : fs.header.Geometry) (data : ℕ → Buf) {d : ℕ} (hd : fat16ClusterValid d = true)
    (hlast : d ≤ fs.header.totalClusters + 1) : (fs.withData data).linkAt d = fs.linkAt d := by
  obtain ⟨hfats, hin⟩ := hg.entries d (valid_bounds hd).1 hlast
  exact linkAt_of_front (tabled hg hfats) hin rfl rfl fun s hs => if_pos hs

theorem Fat16.Strays.withData (hst : fs.Strays c l t) (hg : fs.header.Geometry) (data : ℕ → Buf) :
    (fs.withData data).Strays c l t where
  path := hst.path.congr fun d hd => linkAt_withData hg data (hst.path.ok_of_mem hd) (hst.inside d hd)
  inside := hst.inside
  valid := hst.valid
  outside := hst.outside

theorem Fat16.unended_withData (fs : Fat16) {data : ℕ → Buf} (hdata : ∀ s j, data s j ≠ 0) : (fs.withData data).Unended := by
  intro s hs j
  have hbehind : (fs.withData data).disk s = data s := if_neg (Nat.not_lt.mpr hs)
  rw [hbehind]
  exact hdata s j

/-- A walk along clusters without end markers leaves the volume. -/
theorem Fat16.Strays.walk_not_staysInside (hst : fs.Strays c l t) (hlen : l.length ≤ FAT16_CLUSTER_MAX + 1)
    (hg : fs.header.Geometry) (hf : fs.NoFaults) (hdata : fs.Unended) :
    ¬fs.StaysInside (fat16WalkDir c (walkTo (fs.header.lastSector t)) 0) := by
  refine hst.not_staysInside hg hf Prod.snd fun fs' hheader hf' hst' hdata' => ?_
  rw [← hheader] at hg ⊢
  obtain ⟨w', hwalk, hctx⟩ := walkClusters_strays hf'.io (hdata' hdata) hg l (n := CLUSTER_STEPS) (w := ⟨0, 0, false, 0⟩)
    hst' ⟨rfl, rfl⟩ (Nat.lt_of_le_of_lt hlen (by decide))
  refine ⟨(w'.code, w'.ctx), ?_, hctx⟩
  rw [fat16WalkDir, Prog.bind_apply, Prog.get_apply, Prog.obind_some, if_neg hst.ne_zero, Prog.bind_of_eq hwalk]
  rfl

/-- **When walks stay inside the volume.**  `fat16_walk_dir` stops at an end marker, which the clusters of a directory may
hold or not: whatever they hold, it stays inside exactly when the chain is inside. -/
theorem walk_inside_iff (hg : fs.header.Geometry) (c : ℕ) :
    (∀ data io alloc (κ : Type) (cb : DirCb κ) (ctx : κ), cb.Contained fs.header →
      ((fs.withData data).withOutcomes io alloc).StaysInside (fat16WalkDir c cb ctx)) ↔ fs.ChainInside c := by
  constructor
  · intro h
    by_contra hout
    obtain ⟨l, t, hst, hlen⟩ := Fat16.strays_of_not_inside hout
    -- directories without end markers
    have hfull : (fs.withData fun _ _ => 1).Unended := fs.unended_withData fun _ _ => by decide
    exact (hst.withData hg fun _ _ => 1).quiet.walk_not_staysInside hlen hg (Fat16.quiet_noFaults _) hfull
      (h (fun _ _ => 1) [] [] UInt8 (walkTo (fs.header.lastSector t)) 0 (contained_walkTo _ _))
  · intro hin data io alloc κ cb ctx hcb
    have hin' : (fs.withData data).ChainInside c :=
      hin.of_links rfl fun d hd hlast => Fat16.linkAt_withData hg data hd hlast
    have hgd : (fs.withData data).header.Geometry := hg
    exact (hin'.calls hgd io alloc).walkDir κ cb ctx hcb

/-- **When reads stay inside the volume.**  With clusters of at most 64 KiB `fat16_read` stays inside for every file that
starts at the cluster exactly when the chain is inside. -/
theorem read_inside_iff (hg : fs.header.Geometry) (hspc : fs.header.spc ≤ 128) (hc : fat16ClusterValid c = true) :
    (∀ io alloc (ino : Inode) buf count offset, ino.ent.cluster = c →
      (fs.withOutcomes io alloc).StaysInside (fat16Read ino buf count offset)) ↔ fs.ChainInside c := by
  constructor
  · intro h
    by_contra hout
    obtain ⟨l, t, hst, hlen⟩ := Fat16.strays_of_not_inside hout
    have hsmall := FatHeader.strayOffset_lt hg hspc hlen
    have hcluster : (strayInode c 0 (fs.header.strayOffset l + 1)).ent.cluster = c := by
      have hmax := (valid_bounds hc).2
      rw [FAT16_CLUSTER_MAX] at hmax
      exact strayInode_cluster (by omega) 0 _
    have hgq : fs.quiet.header.Geometry := hg
    refine hst.quiet.not_staysInside hgq fs.quiet_noFaults (fun a : ℤ × Buf => a.2 0) (fun fs' hheader hf hst' _ => ?_)
      (h [] [] _ (fun _ => 0) 1 (fs.header.strayOffset l) hcluster)
    rw [fs.quiet_header] at hheader ⊢
    rw [← hheader] at hg hsmall hcluster ⊢
    exact fat16Read_strays hg hsmall hf hst' hcluster rfl fun _ => 0
  · intro hin io alloc ino buf count offset hino
    exact (hin.calls hg io alloc).read ino buf count offset hino hc

/-- **When writes stay inside the volume.**  On a writable volume with a sector behind the tables `fat16_write` does so for
every file whose slot lies there. -/
theorem write_inside_iff (hg : fs.header.Geometry) (hspc : fs.header.spc ≤ 128) (hro : fs.readOnly = false)
    (hroot : fs.header.rootDirLba < fs.header.totalSectors) (hc : c ≠ 0 → fat16ClusterValid c = true) :
    (∀ io alloc now (ino : Inode) buf count offset, ino.ent.cluster = c → fs.header.InData ino.loc.lba →
      (fs.withOutcomes io alloc).StaysInside (fat16Write now ino buf count offset)) ↔ fs.ChainInside c := by
  constructor
  · intro h
    by_contra hout
    obtain ⟨l, t, hst, hlen⟩ := Fat16.strays_of_not_inside hout
    have hsmall := FatHeader.strayOffset_lt hg hspc hlen
    have hcluster : (strayInode c fs.header.rootDirLba 0).ent.cluster = c := by
      have hmax := (valid_bounds (hst.path.ok_head hst.valid)).2
      rw [FAT16_CLUSTER_MAX] at hmax
      exact strayInode_cluster (by omega) _ 0
    obtain ⟨b, hb, -⟩ := exists_byte_ne (fs.disk (fs.header.lastSector t) 0)
    have hgq : fs.quiet.header.Geometry := hg
    obtain ⟨r, fs', hrun, hbyte⟩ := fat16Write_strays hgq hsmall fs.quiet_noFaults hro hst.quiet ⟨0, 0⟩
      (strayInode_file c fs.header.rootDirLba 0) hcluster hroot b
    rw [fs.quiet_header] at hrun hbyte
    have hbehind := hst.behind hg
    have hkept := (h [] [] ⟨0, 0⟩ _ (fun _ => b) 1 (fs.header.strayOffset l) hcluster ⟨le_rfl, hroot⟩).behind _ _ hrun
      (fs.header.lastSector t) hbehind
    rw [hkept] at hbyte
    exact hb hbyte.symm
  · intro hin io alloc now ino buf count offset hino hloc
    exact (hin.calls hg io alloc).write now ino buf count offset hino hc hloc

/-- **When the calls stay inside the volume, by the contents of the table.**  Whatever transfers and allocations fail, all
calls that start at a cluster stay inside exactly when the links lead from it to clusters of the volume only. -/
theorem calls_inside_iff (hg : fs.header.Geometry) (c : ℕ) :
    (∀ io alloc, (fs.withOutcomes io alloc).CallsInside c) ↔ fs.ChainInside c := by
  constructor
  · intro h
    exact (scan_inside_iff hg c).mp fun io alloc => (h io alloc).dirScan
  · intro hin io alloc
    exact hin.calls hg io alloc

/-- **When the calls stay inside the volume, routine by routine.**  On a writable volume with clusters of at most 64 KiB and
a sector behind its tables, all calls that start at a valid cluster number stay inside exactly when the chain is inside, and
so do the scans alone, the walks alone whatever the directories hold, the reads alone and the writes alone. -/
theorem inside_tfae (hg : fs.header.Geometry) (hspc : fs.header.spc ≤ 128) (hro : fs.readOnly = false)
    (hroot : fs.header.rootDirLba < fs.header.totalSectors) (hc : fat16ClusterValid c = true) :
    List.TFAE [fs.ChainInside c,
      ∀ io alloc, (fs.withOutcomes io alloc).CallsInside c,
      ∀ io alloc (κ : Type) (slot : SlotCb κ) (ctx : κ), slot.Contained fs.header →
        (fs.withOutcomes io alloc).StaysInside (fat16DirScan c slot ctx),
      ∀ data io alloc (κ : Type) (cb : DirCb κ) (ctx : κ), cb.Contained fs.header →
        ((fs.withData data).withOutcomes io alloc).StaysInside (fat16WalkDir c cb ctx),
      ∀ io alloc (ino : Inode) buf count offset, ino.ent.cluster = c →
        (fs.withOutcomes io alloc).StaysInside (fat16Read ino buf count offset),
      ∀ io alloc now (ino : Inode) buf count offset, ino.ent.cluster = c → fs.header.InData ino.loc.lba →
        (fs.withOutcomes io alloc).StaysInside (fat16Write now ino buf count offset)] := by
  refine List.tfae_of_forall (fs.ChainInside c) _ ?_
  simp only [List.forall_mem_cons, List.not_mem_nil, false_implies, implies_true, and_true, true_and]
  exact ⟨calls_inside_iff hg c, scan_inside_iff hg c, walk_inside_iff hg c, read_inside_iff hg hspc hc,
    write_inside_iff hg hspc hro hroot fun _ => hc⟩

/-- A volume of four clusters, all of them free: calls that start at the last one stay inside, and some read of a file that
starts behind it does not. -/
theorem smallVolume_inside : (∀ io alloc, ((strayVolume smallHeader).withOutcomes io alloc).CallsInside 5) ∧
    ¬ ∀ io alloc (ino : Inode) buf count offset, ino.ent.cluster = 6 →
      ((strayVolume smallHeader).withOutcomes io alloc).StaysInside (fat16Read ino buf count offset) := by
  have hg : (strayVolume smallHeader).header.Geometry := ((FatHeader.geometry_iff _).mpr smallHeader_acceptable).2
  have htotal : (strayVolume smallHeader).header.totalClusters = 4 := show smallHeader.totalClusters = 4 by decide
  have hspc : (strayVolume smallHeader).header.spc ≤ 128 := show smallHeader.spc ≤ 128 by decide
  have hroot : (strayVolume smallHeader).header.rootDirLba < (strayVolume smallHeader).header.totalSectors :=
    show smallHeader.rootDirLba < smallHeader.totalSectors by decide
  have hfree : fat16ClusterValid ((strayVolume smallHeader).linkAt 5) = false := rfl
  constructor
  · refine ((inside_tfae hg hspc rfl hroot rfl).out 0 1).mp fun l t hpath ht => ?_
    rw [htotal]
    cases l with
    | nil => exact (path_nil.mp hpath).symm.le
    | cons a l =>
      obtain ⟨rfl, -, hpath⟩ := hpath
      exact not_valid_of_eq hfree (hpath.ok_head ht)
  · intro h
    have hin : (strayVolume smallHeader).ChainInside 6 := ((inside_tfae hg hspc rfl hroot rfl).out 4 0).mp h
    have hlast := hin [] 6 rfl rfl
    rw [htotal] at hlast
    exact absurd hlast (by decide)

end LizardOs.Fat
