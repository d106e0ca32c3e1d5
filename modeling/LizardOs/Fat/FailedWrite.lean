import LizardOs.Fat.Faults
import LizardOs.Fat.WriteThenRead

/-!
# Failed writes

`fat16_write` has failure exits before, inside and after the loop that prolongs the chain, and one label `out` that
recomputes the size whatever happened.  A write that has to prolong the chain, or that lies behind the end of the file,
can return `-1` and leave its traces: clusters taken from the free ones, a first cluster in the cached entry, a larger
size.  Where the table is not in RAM a link that cannot be read counts as the end of the chain, so that a write inside the
file can do the same.  `fat16Write_clean_iff` says exactly for which calls no pattern of failing transfers brings this about.
-/

namespace LizardOs.Fat

open LizardOs.Lib

variable {fs fs' : Fat16} {c x : ℕ} {l l' : List ℕ}

/-! ### One step along the chain with failing transfers -/

/-- What `chain_step` may do behind the cluster `i` of the chain `l`: a cluster that it gives is the next one of a chain
with the same head, and where no cluster is free it changes nothing. -/
structure Fat16.Steps (fs : Fat16) (c : ℕ) (l : List ℕ) (i y : ℕ) (fs' : Fat16) : Prop where
  goes : y ≠ 0 → ∃ l', fs'.Attached ∧ fs'.Heads c l' ∧ l'[i + 1]? = some y ∧ fs'.header = fs.header
  quiet : fs.freeList = [] → (∃ rest, fs' = fs.withFaults rest) ∧ (y = 0 ∨ l[i + 1]? = some y)

theorem Fat16.Heads.withFaults (h : fs.Heads c l) (faults : List (IoOp → ℕ → Bool)) :
    (fs.withFaults faults).Heads c l := h.congr rfl fun _ _ => rfl

theorem chainStep_valid {y : ℕ} (hnext : fat16NextCluster x fs = some (y, fs')) (hy : fat16ClusterValid y = true) :
    chainStep x fs = some (y, fs') := by
  simp only [chainStep, Prog.bind_apply, hnext, Prog.obind_some, hy, if_true, Prog.pure_apply]

theorem chainStep_end {y : ℕ} (hnext : fat16NextCluster x fs = some (y, fs')) (hy : fat16ClusterValid y = false) :
    chainStep x fs = chainStepAlloc x fs' := by
  simp only [chainStep, Prog.bind_apply, hnext, Prog.obind_some, hy, Bool.false_eq_true, if_false]

theorem chainStepAlloc_cases (ha : fs.Attached) (h : fs.Heads c l) {i : ℕ} (hx : l[i]? = some x) :
    ∃ y fs', chainStepAlloc x fs = some (y, fs') ∧ fs.Steps c l i y fs' := by
  have hxl : x ∈ l := List.mem_of_getElem? hx
  have hlen : i < l.length := (List.getElem?_eq_some_iff.mp hx).1
  obtain ⟨r, fs1, halloc, htaken, hfull⟩ := fat16ClusterAlloc_cases ha
  cases r with
  | none =>
    refine ⟨0, fs1, ?_, fun h0 => absurd rfl h0, fun hfree => ⟨(hfull hfree).2, .inl rfl⟩⟩
    simp only [chainStepAlloc, Prog.bind_apply, halloc, Prog.obind_some, Prog.pure_apply]
  | some a =>
    obtain ⟨hmem, rest, rfl⟩ := htaken a rfl
    obtain ⟨hmin, hain, hfree⟩ := Fat16.mem_freeList.mp hmem
    have hnil : fs.freeList ≠ [] := List.ne_nil_of_mem hmem
    have ha1 : ((fs.setFat a FAT16_EOC).withFaults rest).Attached := (ha.setFat hain _).withFaults rest
    obtain ⟨ok, fs2, hset, hok, -⟩ := fat16FatSet_cases ha1.sound.bps_eq x a
    have hstep : chainStepAlloc x fs = some (if ok = true then a else 0, fs2) := by
      simp only [chainStepAlloc, Prog.bind_apply, halloc, Prog.obind_some, hset]
      cases ok <;> rfl
    cases ok with
    | false => exact ⟨0, fs2, hstep, fun h0 => absurd rfl h0, fun hempty => absurd hempty hnil⟩
    | true =>
      obtain ⟨rest', rfl⟩ := hok rfl
      rw [Fat16.withFaults_setFat, Fat16.withFaults_withFaults] at hstep
      have hxin : x ≤ (fs.setFat a FAT16_EOC).header.lastCluster := by
        rw [Fat16.setFat_header]
        exact h.inside hxl
      have hl : l = l.take i ++ [x] ++ l.drop (i + 1) := by
        have hget := (List.getElem?_eq_some_iff.mp hx).2
        rw [← hget, List.append_assoc, List.singleton_append, List.getElem_cons_drop, List.take_append_drop]
      have hheads : (fs.link x a).Heads c (l.take i ++ [x] ++ [a]) := by
        rw [hl] at h
        exact Fat16.heads_relink ha.sound h hmin hain hfree
      refine ⟨a, (fs.link x a).withFaults rest', hstep, fun _ => ⟨l.take i ++ [x] ++ [a], ?_, ?_, ?_, ?_⟩,
        fun hempty => absurd hempty hnil⟩
      · exact ((ha.setFat hain _).setFat hxin _).withFaults rest'
      · exact hheads.withFaults rest'
      · have hplace : (l.take i ++ [x]).length = i + 1 := by
          rw [List.length_append, List.length_take, List.length_singleton, Nat.min_eq_left hlen.le]
        rw [← hplace, List.getElem?_concat_length]
      · exact Fat16.link_header fs x a

/-- **`chain_step` with failing transfers.**  A link that cannot be read counts as the end of the chain. -/
theorem chainStep_cases (ha : fs.Attached) (h : fs.Heads c l) {i : ℕ} (hx : l[i]? = some x) :
    ∃ y fs', chainStep x fs = some (y, fs') ∧ fs.Steps c l i y fs' := by
  have hxl : x ∈ l := List.mem_of_getElem? hx
  obtain ⟨y, rest, hnext, hy⟩ := fat16NextCluster_cases ha (h.inside hxl)
  cases hvalid : fat16ClusterValid y with
  | true =>
    have hlink : l[i + 1]? = some y := by
      rcases hy with rfl | rfl
      · rw [Fat16.eoc_invalid] at hvalid
        cases hvalid
      · cases hend : l[i + 1]? with
        | some z =>
          obtain ⟨t, -, hc⟩ := h.chain
          rw [hc.path.next_getElem hx hend]
        | none =>
          have hlast : l.getLast? = some x := by
            rw [List.getLast?_eq_getElem?]
            have hlen := (List.getElem?_eq_some_iff.mp hx).1
            have hout := List.getElem?_eq_none_iff.mp hend
            rw [show l.length - 1 = i by omega]
            exact hx
          rw [h.invalid_last hlast] at hvalid
          cases hvalid
    exact ⟨y, fs.withFaults rest, chainStep_valid hnext hvalid,
      fun _ => ⟨l, ha.withFaults rest, h.withFaults rest, hlink, rfl⟩, fun _ => ⟨⟨rest, rfl⟩, .inr hlink⟩⟩
  | false =>
    obtain ⟨z, fs', hrun, hgoes, hquiet⟩ := chainStepAlloc_cases (ha.withFaults rest) (h.withFaults rest) hx
    exact ⟨z, fs', (chainStep_end hnext hvalid).trans hrun, hgoes, hquiet⟩

/-- On a full volume `chain_step` changes nothing. -/
theorem chainStep_none (ha : fs.Attached) (h : fs.Heads c l) (hfree : fs.freeList = []) (faults : List (IoOp → ℕ → Bool))
    {i : ℕ} (hx : l[i]? = some x) : ∃ y rest,
      chainStep x (fs.withFaults faults) = some (y, fs.withFaults rest) ∧ (y = 0 ∨ l[i + 1]? = some y) := by
  obtain ⟨y, fs', hstep, -, hquiet⟩ := chainStep_cases (ha.withFaults faults) (h.withFaults faults) hx
  obtain ⟨⟨rest, rfl⟩, hy⟩ := hquiet hfree
  exact ⟨y, rest, hstep, hy⟩

/-- `chain_step` can follow a link of the chain. -/
theorem chainStep_passes (ha : fs.Attached) (h : fs.Heads c l) {i y : ℕ} (hx : l[i]? = some x) (hy : l[i + 1]? = some y) :
    Passes (chainStep x) fs y fs := by
  intro rest
  obtain ⟨t, -, hc⟩ := h.chain
  obtain ⟨faults, hnext⟩ := Passes.fat16NextCluster ha (h.inside (List.mem_of_getElem? hx)) rest
  rw [hc.path.next_getElem hx hy] at hnext
  exact ⟨faults, chainStep_valid hnext (h.valid (List.mem_of_getElem? hy))⟩

/-- Where the link is read as the end of the chain, a free cluster can be taken and then not linked. -/
theorem chainStep_taken (ha : fs.Attached) {a : ℕ} {m : List ℕ} (hlist : fs.freeList = a :: m)
    (hlink : ∀ rest, ∃ faults y, fat16NextCluster x (fs.withFaults faults) = some (y, fs.withFaults rest) ∧
      fat16ClusterValid y = false) :
    ∃ faults, chainStep x (fs.withFaults faults) = some (0, (fs.setFat a FAT16_EOC).withFaults []) := by
  obtain ⟨-, hain, -⟩ := Fat16.Grows.first_free hlist
  have ha1 : ((fs.setFat a FAT16_EOC).withFaults [failure]).Attached := (ha.setFat hain _).withFaults _
  have hset := fat16FatSet_failure ha1.sound x a rfl
  obtain ⟨later, halloc⟩ := Passes.fat16ClusterAlloc ha hlist [failure]
  obtain ⟨faults, y, hnext, hy⟩ := hlink later
  refine ⟨faults, (chainStep_end hnext hy).trans ?_⟩
  simp only [chainStepAlloc, Prog.bind_apply, halloc, Prog.obind_some, hset, Bool.false_eq_true, if_false, Prog.pure_apply,
    Fat16.withFaults_withFaults]

/-- The link of the last cluster is the end of the chain. -/
theorem endLink_last (ha : fs.Attached) (h : fs.Heads c l) (hx : l.getLast? = some x) (rest : List (IoOp → ℕ → Bool)) :
    ∃ faults y, fat16NextCluster x (fs.withFaults faults) = some (y, fs.withFaults rest) ∧ fat16ClusterValid y = false := by
  obtain ⟨faults, hnext⟩ := Passes.fat16NextCluster ha (h.inside (List.mem_of_getLast? hx)) rest
  exact ⟨faults, fs.fatAt x, hnext, h.invalid_last hx⟩

/-- Where the table is not in RAM, any link can be one that is not read. -/
theorem endLink_uncached (hcache : fs.fatCache = none) (x : ℕ) (rest : List (IoOp → ℕ → Bool)) :
    ∃ faults y, fat16NextCluster x (fs.withFaults faults) = some (y, fs.withFaults rest) ∧ fat16ClusterValid y = false := by
  refine ⟨failure :: rest, FAT16_EOC, ?_, Fat16.eoc_invalid⟩
  have hread : ∀ sector, blkDevRead sector (fs.withFaults (failure :: rest)) = some (none, fs.withFaults rest) :=
    fun sector => blkDevRead_failure rfl
  simp only [fat16NextCluster, fat16FatGet, fatFromDisk, Prog.bind_apply, Prog.get_apply, Prog.obind_some,
    Fat16.withFaults_fatCache, hcache, hread, Prog.pure_apply]

/-! ### The positioning loop -/

/-- The position of the loop at the cluster with the number `i + 1` of a chain. -/
theorem seek_advance (h : fs.capacity l < 2 ^ 32) {i : ℕ} (hi : i + 1 < l.length) :
    ((i + 1) * fs.header.clusterSize + fs.header.clusterSize) % 2 ^ 32 = (i + 1 + 1) * fs.header.clusterSize := by
  rw [← Nat.succ_mul, Nat.mod_eq_of_lt]
  exact Nat.lt_of_le_of_lt (Nat.mul_le_mul_right _ (show i + 1 + 1 ≤ l.length by omega)) h

theorem seek_start (h : fs.Heads c l) (hcap : fs.capacity l < 2 ^ 32) :
    fs.header.clusterSize % 2 ^ 32 = (0 + 1) * fs.header.clusterSize ∧ l[0]? = some c := by
  obtain ⟨m, rfl⟩ := h.head
  have hone : 1 * fs.header.clusterSize ≤ fs.capacity (c :: m) := Nat.mul_le_mul_right _ (Nat.succ_pos _)
  exact ⟨by rw [Nat.mod_eq_of_lt (by omega), Nat.zero_add, Nat.one_mul], rfl⟩

/-- Where no step of the loop changes anything, whatever transfers fail, the loop changes nothing: it comes to the cluster
of the offset, or fails. -/
theorem writeSeek_quiet (hs : fs.header.Sound) (hcap : fs.capacity l < 2 ^ 32) {offset : ℕ}
    (hquiet : ∀ faults i x, i < offset / fs.header.clusterSize → l[i]? = some x →
      ∃ y rest, chainStep x (fs.withFaults faults) = some (y, fs.withFaults rest) ∧ (y = 0 ∨ l[i + 1]? = some y))
    (n : ℕ) : ∀ (faults : List (IoOp → ℕ → Bool)) {i x : ℕ}, l[i]? = some x → i ≤ offset / fs.header.clusterSize →
    l.length < i + n → ∃ y rest,
      writeSeek fs.header.clusterSize offset n ((i + 1) * fs.header.clusterSize) x (fs.withFaults faults) =
        some (y, fs.withFaults rest) ∧ (y = 0 ∨ l[offset / fs.header.clusterSize]? = some y) := by
  have hpos := hs.clusterSize_pos
  induction n with
  | zero =>
    intro faults i x hx _ hn
    have hlen := (List.getElem?_eq_some_iff.mp hx).1
    omega
  | succ n ih =>
    intro faults i x hx hi hn
    have hlen : i < l.length := (List.getElem?_eq_some_iff.mp hx).1
    by_cases hover : (i + 1) * fs.header.clusterSize ≤ offset
    · have hlt : i < offset / fs.header.clusterSize := (Nat.le_div_iff_mul_le hpos).mpr hover
      obtain ⟨y, rest, hstep, hy⟩ := hquiet faults i x hlt hx
      by_cases hy0 : y = 0
      · refine ⟨0, rest, ?_, .inl rfl⟩
        simp only [writeSeek, hover, if_true, Prog.bind_apply, hstep, Prog.obind_some, hy0, Prog.pure_apply]
      · have hy := hy.resolve_left hy0
        have hnext := seek_advance hcap (List.getElem?_eq_some_iff.mp hy).1
        obtain ⟨z, rest', hrun, hz⟩ := ih rest hy hlt (by omega)
        refine ⟨z, rest', ?_, hz⟩
        simp only [writeSeek, hover, if_true, Prog.bind_apply, hstep, Prog.obind_some, hy0, if_false, hnext]
        exact hrun
    · have heq : i = offset / fs.header.clusterSize :=
        le_antisymm hi (Nat.le_of_lt_succ (by rwa [Nat.div_lt_iff_lt_mul hpos, ← Nat.not_le]))
      refine ⟨x, faults, ?_, .inr (heq ▸ hx)⟩
      simp only [writeSeek, hover, if_false, Prog.pure_apply]

/-- With outcomes that let it go on, the loop follows the chain. -/
theorem writeSeek_walk (ha : fs.Attached) (h : fs.Heads c l) (hcap : fs.capacity l < 2 ^ 32) {offset : ℕ} (n j : ℕ) :
    ∀ {i x y : ℕ} (rest : List (IoOp → ℕ → Bool)), l[i]? = some x → l[i + j]? = some y →
    (i + j) * fs.header.clusterSize ≤ offset → ∃ faults,
      writeSeek fs.header.clusterSize offset (n + j) ((i + 1) * fs.header.clusterSize) x (fs.withFaults faults) =
        writeSeek fs.header.clusterSize offset n ((i + j + 1) * fs.header.clusterSize) y (fs.withFaults rest) := by
  induction j with
  | zero =>
    intro i x y rest hx hy _
    obtain rfl : x = y := Option.some.inj (hx.symm.trans hy)
    exact ⟨rest, rfl⟩
  | succ j ih =>
    intro i x y rest hx hy hle
    have hlen : i + (j + 1) < l.length := (List.getElem?_eq_some_iff.mp hy).1
    obtain ⟨z, hz⟩ : ∃ z, l[i + 1]? = some z := ⟨_, List.getElem?_eq_getElem (by omega)⟩
    have hz0 : z ≠ 0 := h.ne_zero (List.mem_of_getElem? hz)
    have hpos : (i + 1) * fs.header.clusterSize ≤ offset :=
      le_trans (Nat.mul_le_mul_right _ (by omega)) hle
    have hidx : i + 1 + j = i + (j + 1) := by omega
    obtain ⟨later, hlater⟩ := ih rest hz (by rw [hidx]; exact hy) (by rw [hidx]; exact hle)
    obtain ⟨faults, hstep⟩ := chainStep_passes ha h hx hz later
    refine ⟨faults, ?_⟩
    rw [hidx] at hlater
    rw [← hlater, ← Nat.add_assoc, writeSeek]
    simp only [hpos, if_true, Prog.bind_apply, hstep, Prog.obind_some, hz0, if_false,
      seek_advance hcap (show i + 1 < l.length by omega)]

/-- The positioning loop reaches the clusters of the chain that the offset asks for. -/
theorem writeSeek_reaches (ha : fs.Attached) (h : fs.Heads c l) (hcap : fs.capacity l < 2 ^ 32) {offset j y : ℕ}
    (hy : l[j]? = some y) (hj : j * fs.header.clusterSize ≤ offset) : ∃ n, ∀ rest, ∃ faults,
      writeSeek fs.header.clusterSize offset (2 ^ 32) (fs.header.clusterSize % 2 ^ 32) c (fs.withFaults faults) =
        writeSeek fs.header.clusterSize offset (n + 1) ((j + 1) * fs.header.clusterSize) y (fs.withFaults rest) := by
  have hlen : j < l.length := (List.getElem?_eq_some_iff.mp hy).1
  have hsteps : l.length < 65536 := h.length_lt
  obtain ⟨hsmall, hget⟩ := seek_start h hcap
  obtain ⟨n, hn⟩ : ∃ n, (2 : ℕ) ^ 32 = n + 1 + j := ⟨2 ^ 32 - 1 - j, by omega⟩
  rw [← Nat.zero_add j] at hy hj
  refine ⟨n, fun rest => ?_⟩
  obtain ⟨faults, hwalk⟩ := writeSeek_walk ha h hcap (n + 1) j rest hget hy hj
  refine ⟨faults, ?_⟩
  rw [hsmall, hn, hwalk, Nat.zero_add]

/-- The positioning loop can reach an offset inside the chain. -/
theorem writeSeek_inside (ha : fs.Attached) (h : fs.Heads c l) (hcap : fs.capacity l < 2 ^ 32) {offset : ℕ}
    (hoff : offset < fs.capacity l) : ∃ y, y ∈ l ∧
      Passes (writeSeek fs.header.clusterSize offset (2 ^ 32) (fs.header.clusterSize % 2 ^ 32) c) fs y fs := by
  have hpos := ha.sound.clusterSize_pos
  have hq : offset / fs.header.clusterSize < l.length := by
    rw [Nat.div_lt_iff_lt_mul hpos]
    exact hoff
  have hover : ¬(offset / fs.header.clusterSize + 1) * fs.header.clusterSize ≤ offset := by
    rw [Nat.not_le, Nat.succ_mul]
    exact Nat.lt_div_mul_add hpos
  have hy := List.getElem?_eq_getElem hq
  obtain ⟨n, hn⟩ := writeSeek_reaches ha h hcap hy (Nat.div_mul_le_self _ _)
  refine ⟨_, List.mem_of_getElem? hy, fun rest => ?_⟩
  obtain ⟨faults, hwalk⟩ := hn rest
  refine ⟨faults, hwalk.trans ?_⟩
  simp only [writeSeek, hover, if_false, Prog.pure_apply]

/-- Behind the chain the positioning loop can come to the last cluster, and fails with the step from there. -/
theorem writeSeek_behind (ha : fs.Attached) (h : fs.Heads c l) (hcap : fs.capacity l < 2 ^ 32) {offset : ℕ}
    (hoff : fs.capacity l ≤ offset)
    (hstep : ∀ y, l.getLast? = some y → ∃ faults, chainStep y (fs.withFaults faults) = some (0, fs')) : ∃ faults,
      writeSeek fs.header.clusterSize offset (2 ^ 32) (fs.header.clusterSize % 2 ^ 32) c (fs.withFaults faults) =
        some (0, fs') := by
  obtain ⟨m, y, rfl⟩ := (List.eq_nil_or_concat' l).resolve_left h.ne_nil
  have hcapl : fs.capacity (m ++ [y]) = (m.length + 1) * fs.header.clusterSize := by
    rw [Fat16.capacity, List.length_append, List.length_singleton]
  have hy : (m ++ [y])[m.length]? = some y := by simp
  have hj : m.length * fs.header.clusterSize ≤ offset := by
    have := Nat.mul_le_mul_right fs.header.clusterSize (show m.length ≤ m.length + 1 by omega)
    omega
  obtain ⟨n, hn⟩ := writeSeek_reaches ha h hcap hy hj
  obtain ⟨last, hlast⟩ := hstep y (by simp)
  obtain ⟨faults, hwalk⟩ := hn last
  have hle : (m.length + 1) * fs.header.clusterSize ≤ offset := by omega
  refine ⟨faults, hwalk.trans ?_⟩
  simp only [writeSeek, hle, if_true, Prog.bind_apply, hlast, Prog.obind_some, Prog.pure_apply]

/-! ### The data loops with failing transfers -/

/-- The chunk of a sector is not empty. -/
theorem chunkOf_pos {count : ℕ} {t : Transfer} (hdone : t.done < count) (hskip : ¬512 ≤ t.skip) :
    0 < chunkOf 512 count t ∧ chunkOf 512 count t ≤ 512 := by
  have hchunk : chunkOf 512 count t = min (count - t.done) (512 - t.skip) := chunk_eq count t.done t.skip
  rw [hchunk]
  omega

/-- The store of one chunk, and the turns behind it. -/
def storeChunk (count n lba : ℕ) (t : Transfer) (sector : Buf) : Fs Transfer := do
  if ← blkDevWrite lba (splice sector t.skip (fun j => t.buf (t.done + j)) (chunkOf 512 count t)) then
    writeSectors 512 count n (lba + 1) (chunkNext 512 count t)
  else pure { t with failed := true }

theorem storeChunk_cases (count n lba : ℕ) (t : Transfer) (sector : Buf) (fs : Fat16) :
    ∃ rest, storeChunk count n lba t sector fs = some ({ t with failed := true }, fs.withFaults rest) ∨
      ∃ buf, storeChunk count n lba t sector fs =
        writeSectors 512 count n (lba + 1) (chunkNext 512 count t) ((fs.setSector lba buf).withFaults rest) := by
  obtain ⟨rest, hwrite | hwrite⟩ := blkDevWrite_cases fs lba
    (splice sector t.skip (fun j => t.buf (t.done + j)) (chunkOf 512 count t))
  · refine ⟨rest, .inl ?_⟩
    simp only [storeChunk, Prog.bind_apply, hwrite, Prog.obind_some, Bool.false_eq_true, if_false, Prog.pure_apply]
  · refine ⟨rest, .inr ⟨splice sector t.skip (fun j => t.buf (t.done + j)) (chunkOf 512 count t), ?_⟩⟩
    simp only [storeChunk, Prog.bind_apply, hwrite, Prog.obind_some, if_true]

/-- One turn of the sector loop that writes: the transfers may fail. -/
theorem writeSectors_turn {count : ℕ} {t : Transfer} (hdone : t.done < count) (hskip : ¬512 ≤ t.skip) (n lba : ℕ)
    (fs : Fat16) :
    ∃ rest, writeSectors 512 count (n + 1) lba t fs = some ({ t with failed := true }, fs.withFaults rest) ∨
      ∃ buf, writeSectors 512 count (n + 1) lba t fs =
        writeSectors 512 count n (lba + 1) (chunkNext 512 count t) ((fs.setSector lba buf).withFaults rest) := by
  by_cases hpart : t.skip ≠ 0 ∨ chunkOf 512 count t ≠ 512
  · have hpart' := hpart
    unfold chunkOf at hpart'
    obtain ⟨r, rest, hread, -⟩ := blkDevRead_cases fs lba
    cases r with
    | none =>
      refine ⟨rest, .inl ?_⟩
      simp only [writeSectors, hdone, hskip, if_true, if_false, hpart', Prog.bind_apply, hread, Prog.obind_some,
        Prog.pure_apply]
    | some sector =>
      have hstore : writeSectors 512 count (n + 1) lba t fs = storeChunk count n lba t sector (fs.withFaults rest) := by
        simp only [writeSectors, hdone, hskip, if_true, if_false, hpart', Prog.bind_apply, hread, Prog.obind_some]
        rfl
      rw [hstore]
      exact storeChunk_cases count n lba t sector (fs.withFaults rest)
  · have hpart' := hpart
    unfold chunkOf at hpart'
    have hstore : writeSectors 512 count (n + 1) lba t fs = storeChunk count n lba t (fun _ => 0) fs := by
      simp only [writeSectors, hdone, hskip, if_true, if_false, hpart', Prog.bind_apply, Prog.pure_apply,
        Prog.obind_some]
      rfl
    rw [hstore]
    exact storeChunk_cases count n lba t (fun _ => 0) fs

/-- **The sector loop with failing transfers** writes sectors of its cluster only, and if it stores nothing it writes
none. -/
theorem writeSectors_faulty (count n : ℕ) : ∀ (fs : Fat16) (lba : ℕ) (t : Transfer), t.failed = false →
    t.done + n * 512 < 2 ^ 32 →
    ∃ t' fs', writeSectors 512 count n lba t fs = some (t', fs') ∧
      fs.SectorsOnly (fs'.withFaults fs.ioFaults) lba n ∧ t.done ≤ t'.done ∧ t'.done ≤ t.done + n * 512 ∧
      (t.done < count → t.skip < n * 512 → t'.done = t.done → t'.failed = true ∧ ∃ rest, fs' = fs.withFaults rest) := by
  induction n with
  | zero =>
    intro fs lba t _ _
    exact ⟨t, fs, rfl, .refl fs lba 0, le_refl _, by omega, fun _ h => by omega⟩
  | succ n ih =>
    intro fs lba t ht hk
    rw [Nat.succ_mul] at hk ⊢
    by_cases hdone : t.done < count
    · by_cases hskip : 512 ≤ t.skip
      · obtain ⟨a, ha⟩ : ∃ a, t.skip = 512 + a := ⟨t.skip - 512, by omega⟩
        obtain ⟨t', fs', hrun, hframe, hlo, hhi, hnone⟩ := ih fs (lba + 1) { t with skip := a } ht
          (Nat.lt_of_le_of_lt (Nat.add_le_add_left (Nat.le_add_right _ _) _) hk)
        have hlo' : t.done ≤ t'.done := hlo
        have hhi' : t'.done ≤ t.done + n * 512 := hhi
        refine ⟨t', fs', ?_, ⟨hframe.rest, fun b hb => hframe.disk b (by omega)⟩, hlo',
          le_trans hhi' (Nat.add_le_add_left (Nat.le_add_right _ _) _), fun h1 h2 h3 => ?_⟩
        · simp only [writeSectors, hdone, hskip, if_true, show t.skip - 512 = a by omega]
          exact hrun
        · exact hnone h1 (show a < n * 512 by omega) h3
      · have hchunk := chunkOf_pos hdone hskip
        have hnext : (chunkNext 512 count t).done = t.done + chunkOf 512 count t := Nat.mod_eq_of_lt (by omega)
        obtain ⟨rest, hfail | ⟨buf, hstep⟩⟩ := writeSectors_turn hdone hskip n lba fs
        · exact ⟨_, _, hfail, ⟨rfl, fun _ _ => rfl⟩, le_refl _, Nat.le_add_right _ _, fun _ _ _ => ⟨rfl, rest, rfl⟩⟩
        · obtain ⟨t', fs', hrun, hframe, hlo, hhi, -⟩ := ih ((fs.setSector lba buf).withFaults rest) (lba + 1)
            (chunkNext 512 count t) ht (by rw [hnext]; omega)
          rw [hnext] at hlo hhi
          refine ⟨t', fs', hstep.trans hrun, ⟨?_, fun b hb => ?_⟩, by omega, by omega, fun _ _ h => by omega⟩
          · have hrest : fs'.withFaults rest =
                { (fs.setSector lba buf).withFaults rest with disk := (fs'.withFaults rest).disk } := hframe.rest
            calc fs'.withFaults fs.ioFaults = (fs'.withFaults rest).withFaults fs.ioFaults := rfl
              _ = { fs with disk := fs'.disk } := by rw [hrest]; rfl
          · have hdisk : fs'.disk b = ((fs.setSector lba buf).withFaults rest).disk b := hframe.disk b (by omega)
            show fs'.disk b = fs.disk b
            rw [hdisk, Fat16.withFaults_disk, Fat16.setSector_disk_ne (by omega)]
    · refine ⟨t, fs, ?_, .refl fs lba (n + 1), le_refl _, Nat.le_add_right _ _, fun h => absurd h hdone⟩
      simp only [writeSectors, hdone, if_false, Prog.pure_apply]

/-- **The data loop with failing transfers** never loses what it has stored, and if it stores nothing it writes
nothing. -/
theorem writeClusters_faulty (hspc : fs.header.spc ≤ 128) (count n : ℕ) : ∀ {fs₁ fs₂ : Fat16} {l : List ℕ} {i x : ℕ}
    {t t' : Transfer}, fs₁.Attached → fs₁.header = fs.header → fs₁.Heads c l → l[i]? = some x → t.failed = false →
    t.done ≤ i * fs.header.clusterSize → writeClusters count n x t fs₁ = some (t', fs₂) →
    t.done ≤ t'.done ∧ (t.done < count → t.skip < fs.header.clusterSize → t'.done = t.done →
      ∃ rest, fs₂ = fs₁.withFaults rest) := by
  induction n with
  | zero =>
    intro fs₁ fs₂ l i x t t' _ _ _ _ _ _ hrun
    cases hrun
  | succ n ih =>
    intro fs₁ fs₂ l i x t t' hr hh h hx ht hle hrun
    have hs := hr.sound
    have hcs := hs.clusterSize_eq
    have hxl := List.mem_of_getElem? hx
    have hlen : i < l.length := (List.getElem?_eq_some_iff.mp hx).1
    have hcap := h.capacity_lt hs (by rw [hh]; exact hspc)
    have hin : (i + 1) * fs₁.header.clusterSize ≤ fs₁.capacity l := Nat.mul_le_mul_right _ hlen
    rw [Nat.succ_mul] at hin
    rw [← hh] at hle ⊢
    by_cases hdone : t.done < count
    · obtain ⟨t1, fs1, hrun1, hframe, hlo, hhi, hnone⟩ := writeSectors_faulty count fs₁.header.spc fs₁
        (fs₁.header.clusterToLba x) t ht (by rw [← hcs]; omega)
      rw [← hcs] at hhi hnone
      rw [← hs.bps_eq] at hrun1
      cases hfail : t1.failed with
      | true =>
        rw [writeClusters_failed hdone hrun1 hfail] at hrun
        obtain ⟨rfl, rfl⟩ := Prod.mk.inj (Option.some.inj hrun)
        exact ⟨hlo, fun h1 h2 h3 => (hnone h1 h2 h3).2⟩
      | false =>
        -- something was stored in this cluster, and the loop goes on with it
        have hroot := FatHeader.rootDir_le_clusterToLba (h := fs₁.header) (h.min_le hxl)
        have hr1 : fs1.Attached := (hr.sectorsOnly hframe hroot).withFaults fs1.ioFaults
        have hh1 : fs1.header = fs₁.header := hframe.header
        have hheads1 : fs1.Heads c l := h.congr hh1 fun y hy => hframe.fatAt hs hroot (h.inside hy)
        have hstored : t1.done ≤ t'.done := by
          obtain ⟨y, fs2, hstep, hnext, -⟩ := chainStep_cases hr1 hheads1 hx
          by_cases hmore : t1.done < count
          · rw [writeClusters_step hdone hrun1 hfail hmore hstep] at hrun
            by_cases hy0 : y = 0
            · rw [if_pos hy0] at hrun
              rw [(Prod.mk.inj (Option.some.inj hrun)).1]
            · obtain ⟨l2, hr2, hheads2, hy, hh2⟩ := hnext hy0
              rw [if_neg hy0] at hrun
              have hpos : t1.done ≤ (i + 1) * fs.header.clusterSize := by
                rw [← hh, Nat.succ_mul]
                omega
              exact (ih hr2 (hh2.trans (hh1.trans hh)) hheads2 hy hfail hpos hrun).1
          · rw [writeClusters_last hdone hrun1 hfail hmore] at hrun
            rw [(Prod.mk.inj (Option.some.inj hrun)).1]
        refine ⟨le_trans hlo hstored, fun h1 h2 h3 => ?_⟩
        obtain ⟨hfail', -⟩ := hnone h1 h2 (by omega)
        rw [hfail] at hfail'
        cases hfail'
    · rw [writeClusters_done hdone] at hrun
      obtain ⟨rfl, rfl⟩ := Prod.mk.inj (Option.some.inj hrun)
      exact ⟨le_refl _, fun h1 => absurd h1 hdone⟩

/-! ### Calls that fail without a trace -/

/-- If the write returns `-1`, the size, the cached entry, the entry on disk and the free clusters are as before. -/
def FailsClean (fs : Fat16) (ino : Inode) (now : DosStamp) (buf : Buf) (count offset : ℕ) : Prop :=
  ∀ ino' fs', fat16Write now ino buf count offset fs = some ((-1, ino'), fs') →
    ino'.size = ino.size ∧ ino'.ent = ino.ent ∧ fs'.entryAt ino.loc = fs.entryAt ino.loc ∧
      fs'.freeList = fs.freeList

/-- The write lies inside the clusters of the file, not behind its end, and cannot take one of them for the last one: the
table is in RAM, or the write begins in the first cluster, or there is no cluster to be had.  Or it lies behind the clusters
and there is none to be had. -/
def NothingToUndo (fs : Fat16) (ino : Inode) (l : List ℕ) (count offset : ℕ) : Prop :=
  fs.readOnly = true ∨ count = 0 ∨
    (offset % 2 ^ 32 < fs.capacity l ∧ offset ≤ ino.size ∧ fs.entryAt ino.loc = ino.ent ∧
      (fs.fatCache ≠ none ∨ offset % 2 ^ 32 < fs.header.clusterSize ∨ fs.freeList = [])) ∨
    (fs.capacity l ≤ offset % 2 ^ 32 ∧ fs.freeList = [])

section FailsClean

variable {ino : Inode} {now : DosStamp} {buf : Buf} {count offset : ℕ}

theorem failsClean_of_unchanged {r : ℤ} (faults : List (IoOp → ℕ → Bool))
    (hrun : fat16Write now ino buf count offset fs = some ((r, ino), fs.withFaults faults)) :
    FailsClean fs ino now buf count offset := by
  intro ino' fs' hrun'
  rw [hrun] at hrun'
  obtain ⟨⟨-, rfl⟩, rfl⟩ := by simpa only [Option.some.injEq, Prod.mk.injEq] using hrun'
  exact ⟨rfl, rfl, rfl, rfl⟩

theorem Fat16.Owns.heads (h : fs.Owns c l) (hne : l ≠ []) : fs.Heads c l := by
  rcases h with ⟨-, hl⟩ | h
  · exact absurd hl hne
  · exact h

theorem writeFirst_own (h : fs.Heads ino.ent.cluster l) : writeFirst ino fs = some (some ino, fs) := by
  simp only [writeFirst, h.head_ne_zero, if_false, Prog.pure_apply]

theorem ne_nil_of_lt_capacity {p : ℕ} (h : p < fs.capacity l) : l ≠ [] := by
  rintro rfl
  rw [Fat16.capacity, List.length_nil, Nat.zero_mul] at h
  omega

/-- A step of the positioning loop inside the chain that changes nothing, whatever transfers fail. -/
theorem chainStep_quiet (ha : fs.Attached) (h : fs.Heads c l) {offset : ℕ} (hin : offset < fs.capacity l)
    (hlook : fs.fatCache ≠ none ∨ offset < fs.header.clusterSize ∨ fs.freeList = []) (faults : List (IoOp → ℕ → Bool))
    (i x : ℕ) (hi : i < offset / fs.header.clusterSize) (hx : l[i]? = some x) :
    ∃ y rest, chainStep x (fs.withFaults faults) = some (y, fs.withFaults rest) ∧ (y = 0 ∨ l[i + 1]? = some y) := by
  have hpos := ha.sound.clusterSize_pos
  rcases hlook with hcached | hfirst | hfree
  · have hq : offset / fs.header.clusterSize < l.length := by
      rw [Nat.div_lt_iff_lt_mul hpos]
      exact hin
    have hy := List.getElem?_eq_getElem (l := l) (show i + 1 < l.length by omega)
    exact ⟨_, faults, chainStep_next ((ha.withFaults faults).readable hcached) (h.withFaults faults) hx hy, .inr hy⟩
  · rw [Nat.div_eq_of_lt hfirst] at hi
    omega
  · exact chainStep_none ha h hfree faults hx

/-- Inside the file, with the entry on disk up to date, a write that fails has done nothing. -/
theorem failsClean_inside (hr : fs.Attached) (hspc : fs.header.spc ≤ 128) (hfile : FileOk fs ino l)
    (hro : fs.readOnly = false) (hcount : count ≠ 0) (hin : offset % 2 ^ 32 < fs.capacity l)
    (hle : offset ≤ ino.size) (hsync : fs.entryAt ino.loc = ino.ent)
    (hlook : fs.fatCache ≠ none ∨ offset % 2 ^ 32 < fs.header.clusterSize ∨ fs.freeList = []) :
    FailsClean fs ino now buf count offset := by
  have hs := hr.sound
  have hheads := hfile.owns.heads (ne_nil_of_lt_capacity hin)
  have hcap := hheads.capacity_lt hs hspc
  have hlen : l.length < 65536 := hheads.length_lt
  obtain ⟨hsmall, hget⟩ := seek_start hheads hcap
  obtain ⟨y, rest, hseek, hy⟩ := writeSeek_quiet hs hcap (chainStep_quiet hr hheads hin hlook) (2 ^ 32)
    fs.ioFaults hget (Nat.zero_le _) (by omega)
  rw [← hsmall] at hseek
  by_cases hy0 : y = 0
  · rw [hy0] at hseek
    exact failsClean_of_unchanged rest (fat16Write_seek_failed hfile.regular hro hcount (writeFirst_own hheads) hseek)
  have hy := hy.resolve_left hy0
  intro ino' fs' hrun
  rw [fat16Write_eq hfile.regular hro hcount (writeFirst_own hheads) hseek hy0] at hrun
  cases hdata : writeClusters count (count + CLUSTER_STEPS) y
      ⟨offset % 2 ^ 32 % fs.header.clusterSize, 0, false, buf⟩ (fs.withFaults rest) with
  | none =>
    rw [hdata] at hrun
    cases hrun
  | some p =>
    obtain ⟨t, fs3⟩ := p
    rw [hdata, Prog.obind_some] at hrun
    obtain ⟨-, hnone⟩ := writeClusters_faulty hspc count _ (hr.withFaults rest) rfl (hheads.withFaults rest) hy rfl
      (Nat.zero_le _) hdata
    by_cases hzero : t.done = 0
    · obtain ⟨rest, rfl⟩ := hnone (show 0 < count by omega) (Nat.mod_lt _ hs.clusterSize_pos) hzero
      rw [Fat16.withFaults_withFaults] at hrun
      have hsame : ino.written now offset t.done = ino := by
        rw [hzero, Inode.written, if_neg (by omega), if_neg (by omega)]
      simp only [hsame] at hrun
      have hproper : ino.loc.Proper (fs.withFaults rest).header := hfile.proper
      obtain ⟨ok, rest', ⟨hslot, -⟩ | ⟨hslot, -⟩⟩ := fat16DirWrite_cases (fs.withFaults rest) ino.loc ino.ent
      · rw [hslot] at hrun
        obtain ⟨⟨-, rfl⟩, rfl⟩ := by simpa only [Prog.obind_some, Option.some.injEq, Prod.mk.injEq] using hrun
        exact ⟨rfl, rfl, rfl, rfl⟩
      · rw [hslot] at hrun
        obtain ⟨⟨-, rfl⟩, rfl⟩ := by simpa only [Prog.obind_some, Option.some.injEq, Prod.mk.injEq] using hrun
        refine ⟨rfl, rfl, ?_, ?_⟩
        · rw [Fat16.withFaults_entryAt, Fat16.setEntry_entryAt_self, hsync]
        · exact Fat16.freeList_congr rfl fun b hb => Fat16.setEntry_fatAt hs hproper _ hb
    · -- something was stored, so the call does not fail
      cases hslot : fat16DirWrite (ino.written now offset t.done).loc (ino.written now offset t.done).ent fs3 with
      | none =>
        rw [hslot] at hrun
        cases hrun
      | some q =>
        rw [hslot, Prog.obind_some, writeResult, if_pos (show 0 < t.done by omega)] at hrun
        obtain ⟨⟨hr, -⟩, -⟩ := by simpa only [Option.some.injEq, Prod.mk.injEq] using hrun
        omega

/-- With no cluster of its own at the offset and none to be had, a write fails and has done nothing. -/
theorem failsClean_full (hr : fs.Attached) (hspc : fs.header.spc ≤ 128) (hfile : FileOk fs ino l)
    (hro : fs.readOnly = false) (hcount : count ≠ 0) (hout : fs.capacity l ≤ offset % 2 ^ 32)
    (hfree : fs.freeList = []) : FailsClean fs ino now buf count offset := by
  rcases hfile.owns with ⟨hzero, rfl⟩ | hheads
  · obtain ⟨r, fs1, halloc, -, hfull⟩ := fat16ClusterAlloc_cases hr
    obtain ⟨rfl, rest, rfl⟩ := hfull hfree
    have hfirst : writeFirst ino fs = some (none, fs.withFaults rest) := by
      simp only [writeFirst, hzero, if_true, Prog.bind_apply, halloc, Prog.obind_some, Prog.pure_apply]
    exact failsClean_of_unchanged rest (fat16Write_no_first hfile.regular hro hcount hfirst)
  · have hcap := hheads.capacity_lt hr.sound hspc
    have hlen : l.length < 65536 := hheads.length_lt
    obtain ⟨hsmall, hget⟩ := seek_start hheads hcap
    obtain ⟨y, rest, hseek, hy⟩ := writeSeek_quiet hr.sound hcap
      (fun faults i x _ hx => chainStep_none hr hheads hfree faults hx) (2 ^ 32) fs.ioFaults hget (Nat.zero_le _) (by omega)
    have hbehind : l[offset % 2 ^ 32 / fs.header.clusterSize]? = none :=
      List.getElem?_eq_none_iff.mpr ((Nat.le_div_iff_mul_le hr.sound.clusterSize_pos).mpr hout)
    obtain rfl : y = 0 := hy.resolve_right fun hsome => by
      rw [hbehind] at hsome
      cases hsome
    rw [← hsmall] at hseek
    exact failsClean_of_unchanged rest (fat16Write_seek_failed hfile.regular hro hcount (writeFirst_own hheads) hseek)

/-! ### Calls that can leave a trace -/

/-- The sector loop when its first transfer fails. -/
theorem writeSectors_failure {rest : List (IoOp → ℕ → Bool)} (hf : fs.ioFaults = failure :: rest) (n : ℕ) :
    ∀ (lba : ℕ) (t : Transfer), t.done < count → t.skip < n * 512 →
    ∃ t', writeSectors 512 count n lba t fs = some (t', fs.withFaults rest) ∧ t'.done = t.done ∧ t'.failed = true := by
  induction n with
  | zero =>
    intro lba t _ hskip
    omega
  | succ n ih =>
    intro lba t hdone hin
    by_cases hskip : 512 ≤ t.skip
    · obtain ⟨a, ha⟩ : ∃ a, t.skip = 512 + a := ⟨t.skip - 512, by omega⟩
      obtain ⟨t', hrun, hdone', hfail⟩ := ih (lba + 1) { t with skip := a } hdone (show a < n * 512 by omega)
      refine ⟨t', ?_, hdone', hfail⟩
      simp only [writeSectors, hdone, hskip, if_true, show t.skip - 512 = a by omega]
      exact hrun
    · refine ⟨{ t with failed := true }, ?_, rfl, rfl⟩
      by_cases hpart : t.skip ≠ 0 ∨ chunkOf 512 count t ≠ 512
      · unfold chunkOf at hpart
        simp only [writeSectors, hdone, hskip, if_true, if_false, hpart, Prog.bind_apply, blkDevRead_failure hf,
          Prog.obind_some, Prog.pure_apply]
      · unfold chunkOf at hpart
        simp only [writeSectors, hdone, hskip, if_true, if_false, hpart, Prog.bind_apply, Prog.pure_apply,
          Prog.obind_some, blkDevWrite_failure hf, Bool.false_eq_true]

/-- The data loop when its first transfer fails. -/
theorem writeClusters_failure {rest : List (IoOp → ℕ → Bool)} (hs : fs.header.Sound)
    (hf : fs.ioFaults = failure :: rest) (x : ℕ) {skip : ℕ} (buf : Buf) (hcount : count ≠ 0)
    (hskip : skip < fs.header.clusterSize) :
    ∃ t, writeClusters count (count + CLUSTER_STEPS) x ⟨skip, 0, false, buf⟩ fs = some (t, fs.withFaults rest) ∧
      t.done = 0 := by
  rw [hs.clusterSize_eq] at hskip
  obtain ⟨n, hn⟩ : ∃ n, count + CLUSTER_STEPS = n + 1 := ⟨count + 65535, rfl⟩
  have hpos : 0 < count := by omega
  obtain ⟨t, hrun, hdone, hfail⟩ := writeSectors_failure hf fs.header.spc (fs.header.clusterToLba x)
    ⟨skip, 0, false, buf⟩ hpos hskip
  refine ⟨t, ?_, hdone⟩
  rw [hn]
  rw [← hs.bps_eq] at hrun
  exact writeClusters_failed hpos hrun hfail

theorem FileOk.withFaults (h : FileOk fs ino l) (faults : List (IoOp → ℕ → Bool)) :
    FileOk (fs.withFaults faults) ino l where
  regular := h.regular
  owns := h.owns.congr rfl fun _ _ => rfl
  size_le := h.size_le
  recorded := h.recorded
  proper := h.proper
  apart := h.apart

/-- If the first data transfer fails, the size is set to the offset and the cached entry is written to disk. -/
theorem not_failsClean_of_seek (hm : fs.Mounted) (hfile : FileOk fs ino l) (hheads : fs.Heads ino.ent.cluster l)
    (hro : fs.readOnly = false) (hcount : count ≠ 0) {faults : List (IoOp → ℕ → Bool)} {y : ℕ} (hy : y ∈ l)
    (hseek : writeSeek fs.header.clusterSize (offset % 2 ^ 32) (2 ^ 32) (fs.header.clusterSize % 2 ^ 32) ino.ent.cluster
      (fs.withFaults faults) = some (y, fs.withFaults [failure]))
    (h : ¬(offset ≤ ino.size ∧ fs.entryAt ino.loc = ino.ent)) :
    ¬FailsClean (fs.withFaults faults) ino now buf count offset := by
  have hy0 : y ≠ 0 := hheads.ne_zero hy
  obtain ⟨t, hdata, hzero⟩ := writeClusters_failure (hm.attached.withFaults [failure]).sound rfl y buf hcount
    (Nat.mod_lt (offset % 2 ^ 32) hm.sound.clusterSize_pos)
  rw [Fat16.withFaults_withFaults, Fat16.withFaults_nil hm.noFaults.io] at hdata
  have hrun : fat16Write now ino buf count offset (fs.withFaults faults) = _ :=
    fat16Write_out hfile.regular hro hcount (writeFirst_own (hheads.withFaults faults)) hseek hy0 hdata
      (fat16DirWrite_ok hm.noFaults _ _)
  rw [hzero] at hrun
  intro hclean
  obtain ⟨hsize, -, hentry, -⟩ := hclean _ _ hrun
  rw [Inode.written_size] at hsize
  have hsame : ino.written now offset 0 = ino := by
    rw [Inode.written, if_neg (by omega), if_neg (by omega)]
  rw [hsame, Fat16.setEntry_entryAt_self] at hentry
  exact h ⟨by omega, hentry.symm⟩

theorem not_failsClean_inside (hm : fs.Mounted) (hspc : fs.header.spc ≤ 128) (hfile : FileOk fs ino l)
    (hro : fs.readOnly = false) (hcount : count ≠ 0) (hin : offset % 2 ^ 32 < fs.capacity l)
    (h : ¬(offset ≤ ino.size ∧ fs.entryAt ino.loc = ino.ent)) :
    ∃ faults, ¬FailsClean (fs.withFaults faults) ino now buf count offset := by
  have hheads := hfile.owns.heads (ne_nil_of_lt_capacity hin)
  obtain ⟨y, hy, hpasses⟩ := writeSeek_inside hm.attached hheads (hheads.capacity_lt hm.sound hspc) hin
  obtain ⟨faults, hseek⟩ := hpasses [failure]
  exact ⟨faults, not_failsClean_of_seek hm hfile hheads hro hcount hy hseek h⟩

/-- A run that fails after a free cluster was taken has left a trace. -/
theorem not_failsClean_of_taken (hs : fs.header.Sound) {a : ℕ} {m : List ℕ} (hlist : fs.freeList = a :: m) {ino' : Inode}
    {faults rest : List (IoOp → ℕ → Bool)} (hrun : fat16Write now ino buf count offset (fs.withFaults faults) =
      some ((-1, ino'), (fs.setFat a FAT16_EOC).withFaults rest)) :
    ¬FailsClean (fs.withFaults faults) ino now buf count offset := by
  obtain ⟨-, hain, -⟩ := Fat16.Grows.first_free hlist
  intro hclean
  obtain ⟨-, -, -, hsame⟩ := hclean _ _ hrun
  have hmem : a ∈ ((fs.setFat a FAT16_EOC).withFaults rest).freeList := by
    rw [hsame, Fat16.withFaults_freeList, hlist]
    simp
  have hval := (Fat16.mem_freeList.mp hmem).2.2
  rw [Fat16.withFaults_fatAt, Fat16.fatAt_setFat hs hain (by decide) hain, if_pos rfl] at hval
  revert hval
  decide

/-- A file without a cluster gets one and keeps it when what follows fails. -/
theorem not_failsClean_first (hm : fs.Mounted) (hspc : fs.header.spc ≤ 128) (hfile : FileOk fs ino l)
    (hzero : ino.ent.cluster = 0) (hro : fs.readOnly = false) (hcount : count ≠ 0) {a : ℕ} {m : List ℕ}
    (hlist : fs.freeList = a :: m) : ∃ faults, ¬FailsClean (fs.withFaults faults) ino now buf count offset := by
  obtain ⟨hmin, hain, hfree⟩ := Fat16.Grows.first_free hlist
  have hs := hm.sound
  have hheads := Fat16.heads_single hs hmin hain
  have ha1 : (fs.setFat a FAT16_EOC).Attached := hm.attached.setFat hain _
  have hquiet : (fs.setFat a FAT16_EOC).NoFaults := Fat16.setFat_noFaults hm.noFaults
  have hheader : (fs.setFat a FAT16_EOC).header = fs.header := Fat16.setFat_header _ _ _
  have hcluster := ino.withCluster_cluster hheads.head_lt
  have hfirst : Passes (writeFirst ino) fs (some (ino.withCluster a)) (fs.setFat a FAT16_EOC) := by
    intro rest
    obtain ⟨faults, halloc⟩ := Passes.fat16ClusterAlloc hm.attached hlist rest
    refine ⟨faults, ?_⟩
    simp only [writeFirst, hzero, if_true, Prog.bind_apply, halloc, Prog.obind_some, Prog.pure_apply]
    rfl
  generalize fs.setFat a FAT16_EOC = fs1 at hheads ha1 hquiet hheader hfirst
  have hcap := hheads.capacity_lt ha1.sound (by rw [hheader]; exact hspc)
  -- whatever fails now, the cached entry has the cluster
  have hleft : ∀ faults ino' fs', ino'.ent.cluster = a →
      fat16Write now ino buf count offset (fs.withFaults faults) = some ((-1, ino'), fs') →
      ¬FailsClean (fs.withFaults faults) ino now buf count offset := by
    intro faults ino' fs' hc hrun hclean
    have hent := (hclean ino' fs' hrun).2.1
    rw [hent, hzero] at hc
    simp only [FAT16_CLUSTER_MIN] at hmin
    omega
  by_cases hin : offset % 2 ^ 32 < fs1.capacity [a]
  · obtain ⟨y, hy, hpasses⟩ := writeSeek_inside ha1 hheads hcap hin
    obtain ⟨later, hseek⟩ := hpasses [failure]
    obtain ⟨faults, hfirst⟩ := hfirst later
    have hy0 : y ≠ 0 := hheads.ne_zero hy
    obtain ⟨t, hdata, hnone⟩ := writeClusters_failure (ha1.withFaults [failure]).sound rfl y buf hcount
      (Nat.mod_lt (offset % 2 ^ 32) ha1.sound.clusterSize_pos)
    rw [Fat16.withFaults_withFaults, Fat16.withFaults_nil hquiet.io, Fat16.withFaults_header, hheader] at hdata
    rw [hheader, ← hcluster] at hseek
    have hrun : fat16Write now ino buf count offset (fs.withFaults faults) = _ :=
      fat16Write_out hfile.regular hro hcount hfirst hseek hy0 hdata (fat16DirWrite_ok hquiet _ _)
    rw [hnone] at hrun
    exact ⟨faults, hleft _ _ _ (by rw [Inode.written_cluster, hcluster]) hrun⟩
  · obtain ⟨fs2, hstep⟩ : ∃ fs2, ∃ faults, chainStep a (fs1.withFaults faults) = some (0, fs2) := by
      cases hlist1 : fs1.freeList with
      | nil =>
        obtain ⟨y, rest, hstep, hy⟩ := chainStep_none ha1 hheads hlist1 [] (i := 0) rfl
        obtain rfl : y = 0 := hy.resolve_right fun hsome => by cases hsome
        exact ⟨_, [], hstep⟩
      | cons b m => exact ⟨_, chainStep_taken ha1 hlist1 (endLink_last ha1 hheads rfl)⟩
    obtain ⟨later, hseek⟩ := writeSeek_behind ha1 hheads hcap (Nat.le_of_not_lt hin) fun y hy => by
      obtain rfl : a = y := Option.some.inj hy
      exact hstep
    obtain ⟨faults, hfirst⟩ := hfirst later
    rw [hheader, ← hcluster] at hseek
    exact ⟨faults, hleft _ _ _ hcluster (fat16Write_seek_failed hfile.regular hro hcount hfirst hseek)⟩

/-- Behind the clusters of the file a free one can be taken and then not linked. -/
theorem not_failsClean_behind (hm : fs.Mounted) (hspc : fs.header.spc ≤ 128) (hfile : FileOk fs ino l)
    (hro : fs.readOnly = false) (hcount : count ≠ 0) (hout : fs.capacity l ≤ offset % 2 ^ 32) {a : ℕ} {m : List ℕ}
    (hlist : fs.freeList = a :: m) : ∃ faults, ¬FailsClean (fs.withFaults faults) ino now buf count offset := by
  rcases hfile.owns with ⟨hzero, -⟩ | hheads
  · exact not_failsClean_first hm hspc hfile hzero hro hcount hlist
  · obtain ⟨faults, hseek⟩ := writeSeek_behind hm.attached hheads (hheads.capacity_lt hm.sound hspc) hout
      fun y hy => chainStep_taken hm.attached hlist (endLink_last hm.attached hheads hy)
    exact ⟨faults, not_failsClean_of_taken hm.sound hlist
      (fat16Write_seek_failed hfile.regular hro hcount (writeFirst_own (hheads.withFaults faults)) hseek)⟩

/-- Inside the clusters, if the first link is not read, a free cluster can be taken in place of the next one. -/
theorem not_failsClean_unread (hm : fs.Mounted) (hspc : fs.header.spc ≤ 128) (hfile : FileOk fs ino l)
    (hro : fs.readOnly = false) (hcount : count ≠ 0) (hin : offset % 2 ^ 32 < fs.capacity l)
    (hcache : fs.fatCache = none) (hskip : fs.header.clusterSize ≤ offset % 2 ^ 32) {a : ℕ} {m : List ℕ}
    (hlist : fs.freeList = a :: m) : ∃ faults, ¬FailsClean (fs.withFaults faults) ino now buf count offset := by
  have hheads := hfile.owns.heads (ne_nil_of_lt_capacity hin)
  have hcap := hheads.capacity_lt hm.sound hspc
  obtain ⟨hsmall, -⟩ := seek_start hheads hcap
  obtain ⟨faults, hstep⟩ := chainStep_taken hm.attached hlist (endLink_uncached hcache ino.ent.cluster)
  have hseek : writeSeek fs.header.clusterSize (offset % 2 ^ 32) (2 ^ 32) (fs.header.clusterSize % 2 ^ 32) ino.ent.cluster
      (fs.withFaults faults) = some (0, (fs.setFat a FAT16_EOC).withFaults []) := by
    obtain ⟨n, hn⟩ : ∃ n, (2 : ℕ) ^ 32 = n + 1 := ⟨2 ^ 32 - 1, by omega⟩
    have hle : fs.header.clusterSize % 2 ^ 32 ≤ offset % 2 ^ 32 := by
      rw [hsmall]
      omega
    generalize fs.header.clusterSize % 2 ^ 32 = pos at hle ⊢
    generalize offset % 2 ^ 32 = off at hle ⊢
    rw [hn]
    simp only [writeSeek, hle, if_true, Prog.bind_apply, hstep, Prog.obind_some, Prog.pure_apply]
  exact ⟨faults, not_failsClean_of_taken hm.sound hlist
    (fat16Write_seek_failed hfile.regular hro hcount (writeFirst_own (hheads.withFaults faults)) hseek)⟩

/-- **A failed write changes nothing**, whatever transfers fail, exactly when the write needs no new cluster to reach
its offset, does not lie behind the end of the file and cannot take a cluster of the file for the last one, or can get no
cluster at all. -/
theorem fat16Write_clean_iff (hm : fs.Mounted) (hspc : fs.header.spc ≤ 128) (hfile : FileOk fs ino l) :
    (∀ faults, FailsClean (fs.withFaults faults) ino now buf count offset) ↔ NothingToUndo fs ino l count offset := by
  constructor
  · intro h
    by_contra hcond
    simp only [NothingToUndo, not_or, Bool.not_eq_true] at hcond
    obtain ⟨hro, hcount, hin, hout⟩ := hcond
    suffices hleft : ∃ faults, ¬FailsClean (fs.withFaults faults) ino now buf count offset by
      obtain ⟨faults, hleft⟩ := hleft
      exact hleft (h faults)
    by_cases hoff : offset % 2 ^ 32 < fs.capacity l
    · by_cases hfit : offset ≤ ino.size ∧ fs.entryAt ino.loc = ino.ent
      · have hlook : ¬(fs.fatCache ≠ none ∨ offset % 2 ^ 32 < fs.header.clusterSize ∨ fs.freeList = []) :=
          fun hlook => hin ⟨hoff, hfit.1, hfit.2, hlook⟩
        simp only [not_or, not_not, Nat.not_lt] at hlook
        obtain ⟨hcache, hskip, hfree⟩ := hlook
        obtain ⟨a, m, hlist⟩ := List.exists_cons_of_ne_nil hfree
        exact not_failsClean_unread hm hspc hfile hro hcount hoff hcache hskip hlist
      · exact not_failsClean_inside hm hspc hfile hro hcount hoff hfit
    · obtain ⟨a, m, hlist⟩ := List.exists_cons_of_ne_nil fun hc => hout ⟨Nat.le_of_not_lt hoff, hc⟩
      exact not_failsClean_behind hm hspc hfile hro hcount (Nat.le_of_not_lt hoff) hlist
  · intro hcond faults
    have ha := hm.attached.withFaults faults
    cases hro : fs.readOnly with
    | true => exact failsClean_of_unchanged faults (fat16Write_readOnly hro)
    | false =>
      by_cases hcount : count = 0
      · exact failsClean_of_unchanged faults (fat16Write_nothing hfile.regular hro hcount)
      · rcases hcond with h | h | ⟨hin, hle, hsync, hlook⟩ | ⟨hout, hfree⟩
        · rw [hro] at h
          cases h
        · exact absurd h hcount
        · exact failsClean_inside ha hspc (hfile.withFaults faults) hro hcount hin hle hsync hlook
        · exact failsClean_full ha hspc (hfile.withFaults faults) hro hcount hout hfree

end FailsClean

/-- Three bytes written into a file of five: no failing transfer leaves a trace. -/
theorem fat16Write_clean_iff_fiveBytes :
    FileOk (fiveBytes 0x53) fiveInode [2] ∧
      ∀ faults, FailsClean ((fiveBytes 0x53).withFaults faults) fiveInode ⟨0, 0⟩ (fun _ => 0x42) 3 1 :=
  ⟨fiveBytes_ok _, (fat16Write_clean_iff (fiveBytes_mounted _) (by decide) (fiveBytes_ok _)).mpr
    (.inr (.inr (.inl (by decide))))⟩

/-- A byte written at offset 7 whose first transfer fails: the call returns `-1` and the file has seven bytes. -/
theorem not_fat16Write_clean_fiveBytes :
    FileOk (fiveBytes 0x53) fiveInode [2] ∧
      ¬FailsClean ((fiveBytes 0x53).withFaults [failure]) fiveInode ⟨0, 0⟩ (fun _ => 0x42) 1 7 := by
  have hheads := (fiveBytes_ok 0x53).owns.heads (List.cons_ne_nil 2 [])
  have hseek : writeSeek (fiveBytes 0x53).header.clusterSize (7 % 2 ^ 32) (2 ^ 32)
      ((fiveBytes 0x53).header.clusterSize % 2 ^ 32) fiveInode.ent.cluster ((fiveBytes 0x53).withFaults [failure]) =
        some (2, (fiveBytes 0x53).withFaults [failure]) := writeSeek_first _ (by decide) 2 _
  refine ⟨fiveBytes_ok _, not_failsClean_of_seek (fiveBytes_mounted _) (fiveBytes_ok _) hheads rfl (by decide)
    (List.mem_singleton.mpr rfl) hseek ?_⟩
  intro h
  exact absurd h.1 (by decide)

end LizardOs.Fat
