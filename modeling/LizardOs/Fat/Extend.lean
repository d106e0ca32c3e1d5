import LizardOs.Fat.Files
import LizardOs.Fat.Layout

/-!
# Growing a file's chain

`fat16_write` walks the file's chain and prolongs it with free clusters where it ends, first to reach the
offset and then between two clusters of data.  Whatever the offset and the length, the whole call amounts
to one kind of change, `Extends`: the chain gets longer by clusters that were free, the table changes at
clusters of the chain only, and no sector outside the chain's clusters is written.
-/

namespace LizardOs.Fat

open LizardOs.Lib

namespace Fat16

/-- `c` heads a chain in use: it has a cluster, and it is not closed by the free mark. -/
structure Heads (fs : Fat16) (c : ℕ) (l : List ℕ) : Prop where
  ne_nil : l ≠ []
  chain : ∃ t, t ≠ FAT16_FREE_CLUSTER ∧ fs.Chain c l t

/-- No cluster the allocator considers is free. -/
def Full (fs : Fat16) : Prop :=
  ∀ b, FAT16_CLUSTER_MIN ≤ b → b ≤ fs.header.lastCluster → fs.fatAt b ≠ FAT16_FREE_CLUSTER

variable {fs fs' : Fat16} {c x a : ℕ} {l l' : List ℕ}

namespace Heads

theorem valid (h : fs.Heads c l) (hx : x ∈ l) : fat16ClusterValid x = true := by
  obtain ⟨t, -, hc⟩ := h.chain
  exact hc.path.ok_of_mem hx

theorem min_le (h : fs.Heads c l) (hx : x ∈ l) : FAT16_CLUSTER_MIN ≤ x := valid_min_le (h.valid hx)

theorem inside (h : fs.Heads c l) (hx : x ∈ l) : x ≤ fs.header.lastCluster := by
  obtain ⟨t, -, hc⟩ := h.chain
  exact hc.inside x hx

theorem nodup (h : fs.Heads c l) : l.Nodup := by
  obtain ⟨t, -, hc⟩ := h.chain
  exact hc.nodup

theorem head (h : fs.Heads c l) : ∃ m, l = c :: m := by
  obtain ⟨t, -, hc⟩ := h.chain
  cases l with
  | nil => exact absurd rfl h.ne_nil
  | cons b m => exact ⟨m, by rw [hc.path.head]⟩

theorem head_mem (h : fs.Heads c l) : c ∈ l := by
  obtain ⟨m, rfl⟩ := h.head
  simp

/-- No cluster of a chain in use is 0, the failure of `chain_step`. -/
theorem ne_zero (h : fs.Heads c l) (hx : x ∈ l) : x ≠ 0 := by
  have := h.min_le hx
  simp only [FAT16_CLUSTER_MIN] at this
  omega

theorem head_ne_zero (h : fs.Heads c l) : c ≠ 0 := h.ne_zero h.head_mem

/-- No cluster of a chain in use is marked free. -/
theorem ne_free (h : fs.Heads c l) (hx : x ∈ l) : fs.fatAt x ≠ FAT16_FREE_CLUSTER := by
  obtain ⟨t, ht, hc⟩ := h.chain
  rcases hc.path.next_mem hx with hmem | hend
  · have := h.min_le hmem
    simp only [FAT16_CLUSTER_MIN, FAT16_FREE_CLUSTER] at *
    omega
  · rw [hend]
    exact ht

theorem unique (h : fs.Heads c l) (h' : fs.Heads c l') : l = l' := by
  obtain ⟨t, -, hc⟩ := h.chain
  obtain ⟨t', -, hc'⟩ := h'.chain
  exact (hc.path.unique hc.ended hc'.path hc'.ended).1

/-- A chain depends on the table entries of its own clusters only. -/
theorem congr (h : fs.Heads c l) (hh : fs'.header = fs.header)
    (hfat : ∀ x ∈ l, fs'.fatAt x = fs.fatAt x) : fs'.Heads c l := by
  obtain ⟨t, ht, hc⟩ := h.chain
  refine ⟨h.ne_nil, t, ht, hc.path.congr hfat, hc.ended, hc.nodup, ?_⟩
  rw [hh]
  exact hc.inside

/-- The link of the last cluster of a chain ends the chain. -/
theorem invalid_last (h : fs.Heads c l) (hx : l.getLast? = some x) : fat16ClusterValid (fs.fatAt x) = false := by
  obtain ⟨t, -, hc⟩ := h.chain
  obtain ⟨m, hm⟩ := List.getLast?_eq_some_iff.mp hx
  rw [hm] at hc
  rw [hc.path.next_last]
  exact hc.ended

theorem length_lt (h : fs.Heads c l) : l.length < CLUSTER_STEPS := by
  obtain ⟨t, -, hc⟩ := h.chain
  exact hc.length_lt

end Heads

/-- Mark a free cluster as the end of a chain and link a cluster to it. -/
def link (fs : Fat16) (x a : ℕ) : Fat16 := (fs.setFat a FAT16_EOC).setFat x a

@[simp] theorem link_header (fs : Fat16) (x a : ℕ) : (fs.link x a).header = fs.header := by
  rw [link, setFat_header, setFat_header]

@[simp] theorem link_readOnly (fs : Fat16) (x a : ℕ) : (fs.link x a).readOnly = fs.readOnly := by
  rw [link, setFat_readOnly, setFat_readOnly]

theorem link_mounted (hm : fs.Mounted) (hx : x ≤ fs.header.lastCluster)
    (ha : a ≤ fs.header.lastCluster) : (fs.link x a).Mounted :=
  setFat_mounted (setFat_mounted hm ha) (by rw [setFat_header]; exact hx)

theorem link_disk (hs : fs.header.Sound) (hx : x ≤ fs.header.lastCluster)
    (ha : a ≤ fs.header.lastCluster) {lba : ℕ} (hlba : fs.header.rootDirLba ≤ lba) :
    (fs.link x a).disk lba = fs.disk lba := by
  rw [link, setFat_disk_of_root_le (by rw [setFat_header]; exact hs)
    (by rw [setFat_header]; exact hx) (by rw [setFat_header]; exact hlba),
    setFat_disk_of_root_le hs ha hlba]

theorem fatAt_link (hs : fs.header.Sound) (hx : x ≤ fs.header.lastCluster)
    (ha : a ≤ fs.header.lastCluster) {d : ℕ} (hd : d ≤ fs.header.lastCluster) :
    (fs.link x a).fatAt d = if d = x then a else if d = a then FAT16_EOC else fs.fatAt d := by
  have hlast := fs.header.lastCluster_le
  have hmax : FAT16_CLUSTER_MAX < 65536 := by decide
  rw [link, fatAt_setFat (by rw [setFat_header]; exact hs) (by rw [setFat_header]; exact hx)
    (by omega) (by rw [setFat_header]; exact hd), fatAt_setFat hs ha (by decide) hd]

theorem valid_of_inside (hmin : FAT16_CLUSTER_MIN ≤ a) (ha : a ≤ fs.header.lastCluster) :
    fat16ClusterValid a = true :=
  valid_iff.mpr ⟨hmin, le_trans ha fs.header.lastCluster_le⟩

theorem eoc_invalid : fat16ClusterValid FAT16_EOC = false := by decide

/-- A free cluster marked end-of-chain is a chain of its own. -/
theorem heads_single (hs : fs.header.Sound) (hmin : FAT16_CLUSTER_MIN ≤ a)
    (ha : a ≤ fs.header.lastCluster) : (fs.setFat a FAT16_EOC).Heads a [a] where
  ne_nil := by simp
  chain := by
    refine ⟨FAT16_EOC, by decide, ⟨?_, eoc_invalid, by simp, ?_⟩⟩
    · refine ⟨rfl, valid_of_inside hmin ha, ?_⟩
      rw [fatAt_setFat hs ha (by decide) ha, if_pos rfl]
      rfl
    · intro y hy
      rw [List.mem_singleton.mp hy, setFat_header]
      exact ha

/-- Linking a cluster of a chain to a free one makes the free one the end of the chain; the clusters behind it are cut
off. -/
theorem heads_relink {m k : List ℕ} (hs : fs.header.Sound) (h : fs.Heads c (m ++ [x] ++ k)) (hmin : FAT16_CLUSTER_MIN ≤ a)
    (ha : a ≤ fs.header.lastCluster) (hfree : fs.fatAt a = FAT16_FREE_CLUSTER) :
    (fs.link x a).Heads c (m ++ [x] ++ [a]) := by
  have hxin := h.inside (x := x) (by simp)
  have hal : a ∉ m ++ [x] := fun hmem => h.ne_free (List.mem_append_left k hmem) hfree
  have hnd : (m ++ [x]).Nodup := (List.nodup_append.mp h.nodup).1
  obtain ⟨t, -, hc⟩ := h.chain
  obtain ⟨z, hpath, -⟩ := path_append.mp hc.path
  have hinside : ∀ y ∈ m ++ [x], y ≤ fs.header.lastCluster := fun y hy => hc.inside y (List.mem_append_left k hy)
  refine ⟨by simp, FAT16_EOC, by decide, ?_, eoc_invalid, ?_, ?_⟩
  · apply hpath.snoc (valid_of_inside hmin ha)
    · rw [fatAt_link hs hxin ha hxin, if_pos rfl]
    · rw [fatAt_link hs hxin ha ha, if_neg (fun hax => hal (by simp [hax])), if_pos rfl]
    · intro y hy
      have hyx : y ≠ x := by
        rintro rfl
        rw [List.nodup_append] at hnd
        exact hnd.2.2 y hy y (by simp) rfl
      rw [fatAt_link hs hxin ha (hinside y (by simp [hy])), if_neg hyx, if_neg (fun hya => hal (by simp [← hya, hy]))]
  · rw [List.nodup_append]
    refine ⟨hnd, by simp, ?_⟩
    intro y hy z hz hyz
    rw [List.mem_singleton.mp hz] at hyz
    exact hal (hyz ▸ hy)
  · intro y hy
    rw [link_header]
    rcases List.mem_append.mp hy with hy | hy
    · exact hinside y hy
    · rw [List.mem_singleton.mp hy]
      exact ha

/-- Linking the last cluster of a chain to a free one prolongs the chain by it. -/
theorem heads_link (hs : fs.header.Sound) (h : fs.Heads c l) (hx : l.getLast? = some x)
    (hmin : FAT16_CLUSTER_MIN ≤ a) (ha : a ≤ fs.header.lastCluster)
    (hfree : fs.fatAt a = FAT16_FREE_CLUSTER) : (fs.link x a).Heads c (l ++ [a]) := by
  obtain ⟨m, rfl⟩ := List.getLast?_eq_some_iff.mp hx
  rw [← List.append_nil (m ++ [x])] at h
  exact heads_relink hs h hmin ha hfree

/-- `fs'` is `fs` with the chain `l` prolonged to the chain `l'` of head `c` by clusters that were free, and
with arbitrary data in the chain's sectors. -/
structure Extends (fs fs' : Fat16) (c : ℕ) (l l' : List ℕ) : Prop where
  header : fs'.header = fs.header
  readOnly : fs'.readOnly = fs.readOnly
  mounted : fs'.Mounted
  heads : fs'.Heads c l'
  fresh : ∃ m, l' = l ++ m ∧ ∀ b ∈ m, fs.fatAt b = FAT16_FREE_CLUSTER
  fat : ∀ b ≤ fs.header.lastCluster, b ∉ l' → fs'.fatAt b = fs.fatAt b
  disk : ∀ lba, fs.header.rootDirLba ≤ lba →
    (∀ b ∈ l', ∀ i < fs.header.spc, lba ≠ fs.header.clusterToLba b + i) →
    fs'.disk lba = fs.disk lba

namespace Extends

variable {fs'' : Fat16} {l'' : List ℕ}

theorem refl (hm : fs.Mounted) (h : fs.Heads c l) : fs.Extends fs c l l where
  header := rfl
  readOnly := rfl
  mounted := hm
  heads := h
  fresh := ⟨[], by simp⟩
  fat := fun _ _ _ => rfl
  disk := fun _ _ _ => rfl

theorem sub (h : fs.Extends fs' c l l') : ∀ b ∈ l, b ∈ l' := by
  obtain ⟨m, rfl, -⟩ := h.fresh
  intro b hb
  exact List.mem_append_left _ hb

theorem trans (h : fs.Extends fs' c l l') (h' : fs'.Extends fs'' c l' l'') :
    fs.Extends fs'' c l l'' where
  header := h'.header.trans h.header
  readOnly := h'.readOnly.trans h.readOnly
  mounted := h'.mounted
  heads := h'.heads
  fresh := by
    obtain ⟨m, rfl, hm⟩ := h.fresh
    obtain ⟨m', rfl, hm'⟩ := h'.fresh
    refine ⟨m ++ m', by simp, ?_⟩
    intro b hb
    rcases List.mem_append.mp hb with hb | hb
    · exact hm b hb
    · -- a cluster free in the middle state is not on the chain there
      have hfree := hm' b hb
      have hb' : b ∉ l ++ m := fun hmem => h.heads.ne_free hmem hfree
      have hin : b ≤ fs.header.lastCluster := by
        have := h'.heads.inside (x := b) (by simp [hb])
        rwa [h'.header, h.header] at this
      rw [← h.fat b hin hb']
      exact hfree
  fat := by
    intro b hb hbl
    rw [h'.fat b (by rw [h.header]; exact hb) hbl, h.fat b hb (fun hmem => hbl (h'.sub b hmem))]
  disk := by
    intro lba hlba hout
    rw [h'.disk lba (by rw [h.header]; exact hlba) (by rw [h.header]; exact hout)]
    exact h.disk lba hlba fun b hb => hout b (h'.sub b hb)

theorem of_link (hm : fs.Mounted) (h : fs.Heads c l) (hx : l.getLast? = some x)
    (hmin : FAT16_CLUSTER_MIN ≤ a) (ha : a ≤ fs.header.lastCluster)
    (hfree : fs.fatAt a = FAT16_FREE_CLUSTER) : fs.Extends (fs.link x a) c l (l ++ [a]) where
  header := link_header fs x a
  readOnly := link_readOnly fs x a
  mounted := link_mounted hm (h.inside (List.mem_of_getLast? hx)) ha
  heads := heads_link hm.sound h hx hmin ha hfree
  fresh := ⟨[a], rfl, by simpa using hfree⟩
  fat := by
    intro b hb hbl
    simp only [List.mem_append, List.mem_singleton, not_or] at hbl
    rw [fatAt_link hm.sound (h.inside (List.mem_of_getLast? hx)) ha hb, if_neg, if_neg hbl.2]
    rintro rfl
    exact hbl.1 (List.mem_of_getLast? hx)
  disk := by
    intro lba hlba _
    exact link_disk hm.sound (h.inside (List.mem_of_getLast? hx)) ha hlba

theorem of_single (hm : fs.Mounted) (hmin : FAT16_CLUSTER_MIN ≤ a)
    (ha : a ≤ fs.header.lastCluster) (hfree : fs.fatAt a = FAT16_FREE_CLUSTER) :
    fs.Extends (fs.setFat a FAT16_EOC) a [] [a] where
  header := setFat_header fs a FAT16_EOC
  readOnly := setFat_readOnly fs a FAT16_EOC
  mounted := setFat_mounted hm ha
  heads := heads_single hm.sound hmin ha
  fresh := ⟨[a], rfl, by simpa using hfree⟩
  fat := by
    intro b hb hbl
    rw [fatAt_setFat hm.sound ha (by decide) hb, if_neg (by simpa using hbl)]
  disk := fun lba hlba _ => setFat_disk_of_root_le hm.sound ha hlba

end Extends

/-- A chain prolonged by the first free clusters, with no data written. -/
structure Grows (fs fs' : Fat16) (c : ℕ) (l l' : List ℕ) : Prop extends fs.Extends fs' c l l' where
  supply : l' ++ fs'.freeList = l ++ fs.freeList
  data : ∀ lba, fs.header.rootDirLba ≤ lba → fs'.disk lba = fs.disk lba

namespace Grows

variable {fs'' : Fat16} {l'' m : List ℕ}

theorem refl (hm : fs.Mounted) (h : fs.Heads c l) : fs.Grows fs c l l :=
  ⟨.refl hm h, rfl, fun _ _ => rfl⟩

theorem trans (h : fs.Grows fs' c l l') (h' : fs'.Grows fs'' c l' l'') : fs.Grows fs'' c l l'' where
  toExtends := h.toExtends.trans h'.toExtends
  supply := h'.supply.trans h.supply
  data := by
    intro lba hlba
    rw [h'.data lba (by rw [h.header]; exact hlba), h.data lba hlba]

/-- The first free cluster is a cluster that can be taken. -/
theorem first_free (hlist : fs.freeList = a :: m) :
    FAT16_CLUSTER_MIN ≤ a ∧ a ≤ fs.header.lastCluster ∧ fs.fatAt a = FAT16_FREE_CLUSTER := by
  apply mem_freeList.mp
  rw [hlist]
  simp

theorem of_link (hm : fs.Mounted) (h : fs.Heads c l) (hx : l.getLast? = some x) (hlist : fs.freeList = a :: m) :
    fs.Grows (fs.link x a) c l (l ++ [a]) := by
  obtain ⟨hmin, hain, hfree⟩ := first_free hlist
  have hxl := List.mem_of_getLast? hx
  have hxin := h.inside hxl
  have hax : a ≠ x := by
    rintro rfl
    exact h.ne_free hxl hfree
  refine ⟨.of_link hm h hx hmin hain hfree, ?_, fun lba hlba => link_disk hm.sound hxin hain hlba⟩
  have hrest : (fs.link x a).freeList = m := by
    apply freeList_take (link_header fs x a) hlist
    · rw [fatAt_link hm.sound hxin hain hain, if_neg hax, if_pos rfl]
      decide
    · intro b hb hba
      rw [fatAt_link hm.sound hxin hain hb, if_neg hba]
      split
      · rename_i hbx
        subst hbx
        simp only [h.ne_free hxl, iff_false]
        simp only [FAT16_CLUSTER_MIN, FAT16_FREE_CLUSTER] at *
        omega
      · rfl
  rw [hrest, hlist, List.append_assoc]
  rfl

theorem of_single (hm : fs.Mounted) (hlist : fs.freeList = a :: m) :
    fs.Grows (fs.setFat a FAT16_EOC) a [] [a] := by
  obtain ⟨hmin, hain, hfree⟩ := first_free hlist
  refine ⟨.of_single hm hmin hain hfree, ?_, fun lba hlba => setFat_disk_of_root_le hm.sound hain hlba⟩
  have hrest : (fs.setFat a FAT16_EOC).freeList = m := by
    apply freeList_take (setFat_header fs a FAT16_EOC) hlist
    · rw [fatAt_setFat hm.sound hain (by decide) hain, if_pos rfl]
      decide
    · intro b hb hba
      rw [fatAt_setFat hm.sound hain (by decide) hb, if_neg hba]
  rw [hrest, hlist]
  rfl

end Grows

end Fat16

/-! ### One step along the chain -/

variable {fs : Fat16} {c x : ℕ} {l : List ℕ}

/-- `chain_step` inside the chain. -/
theorem chainStep_next (hr : fs.Readable) (h : fs.Heads c l) {i y : ℕ} (hx : l[i]? = some x)
    (hy : l[i + 1]? = some y) : chainStep x fs = some (y, fs) := by
  obtain ⟨t, -, hc⟩ := h.chain
  have hnext : fs.fatAt x = y := hc.path.next_getElem hx hy
  simp only [chainStep, chainStepAlloc, Prog.bind_apply, hr.next (h.inside (List.mem_of_getElem? hx)), Prog.obind_some,
    hnext, h.valid (List.mem_of_getElem? hy), if_true, Prog.pure_apply]

/-- `chain_step` at the end of the chain on a full volume. -/
theorem chainStep_full (hr : fs.Readable) (h : fs.Heads c l) (hx : l.getLast? = some x)
    (hlist : fs.freeList = []) : chainStep x fs = some (0, fs) := by
  have hnext := h.invalid_last hx
  simp only [chainStep, chainStepAlloc, Prog.bind_apply, hr.next (h.inside (List.mem_of_getLast? hx)), Prog.obind_some,
    hnext, Bool.false_eq_true, if_false, fat16ClusterAlloc_nil hr hlist, Prog.pure_apply]

/-- **`chain_step`**: the next cluster of the chain; behind its last one a fresh cluster linked to it, or `0`
on a full volume. -/
theorem chainStep_ok (hm : fs.Mounted) (h : fs.Heads c l) {i : ℕ} (hx : l[i]? = some x) :
    (∃ y, l[i + 1]? = some y ∧ chainStep x fs = some (y, fs)) ∨
    (i + 1 = l.length ∧ fs.freeList = [] ∧ chainStep x fs = some (0, fs)) ∨
    (i + 1 = l.length ∧ ∃ a, chainStep x fs = some (a, fs.link x a) ∧
      fs.Grows (fs.link x a) c l (l ++ [a])) := by
  have hxl : x ∈ l := List.mem_of_getElem? hx
  have hlen : i < l.length := (List.getElem?_eq_some_iff.mp hx).1
  cases hy : l[i + 1]? with
  | some y => exact .inl ⟨y, rfl, chainStep_next hm.readable h hx hy⟩
  | none =>
    right
    have hlast : i + 1 = l.length := by
      have := List.getElem?_eq_none_iff.mp hy
      omega
    have hgl : l.getLast? = some x := by
      rw [List.getLast?_eq_getElem?, ← hlast]
      exact hx
    cases hlist : fs.freeList with
    | cons a m =>
      right
      have hma : (fs.setFat a FAT16_EOC).Mounted := Fat16.setFat_mounted hm (Fat16.Grows.first_free hlist).2.1
      have hset := fat16FatSet_ok hma x a
      refine ⟨hlast, a, ?_, .of_link hm h hgl hlist⟩
      simp only [chainStep, chainStepAlloc, Prog.bind_apply, fat16NextCluster_ok hm (h.inside hxl), Prog.obind_some,
        h.invalid_last hgl, Bool.false_eq_true, if_false, fat16ClusterAlloc_cons hm hlist, hset, if_true,
        Prog.pure_apply]
      rfl
    | nil => exact .inl ⟨hlast, rfl, chainStep_full hm.readable h hgl hlist⟩

/-- The loop position after `k` steps: a 32-bit counter. -/
def seekPos (clusterSize pos k : ℕ) : ℕ := (pos + k * clusterSize) % 2 ^ 32

theorem seekPos_succ (clusterSize pos k : ℕ) :
    seekPos clusterSize ((pos + clusterSize) % 2 ^ 32) k = seekPos clusterSize pos (k + 1) := by
  unfold seekPos
  rw [Nat.mod_add_mod]
  congr 1
  ring

/-- **The positioning loop** ends for every offset: it stands on the first cluster whose position exceeds the
offset, or the volume is full. -/
theorem writeSeek_ok (cs offset n : ℕ) : ∀ {fs : Fat16} {l : List ℕ} {i x pos : ℕ},
    fs.Mounted → fs.Heads c l → l[i]? = some x → pos < 2 ^ 32 → CLUSTER_STEPS ≤ i + n →
    ∃ r fs' l', writeSeek cs offset n pos x fs = some (r, fs') ∧ fs.Grows fs' c l l' ∧
      ((r = 0 ∧ fs'.freeList = [] ∧ ∃ k, l'.length = i + k + 1 ∧ ∀ j ≤ k, seekPos cs pos j ≤ offset) ∨
       (∃ k, l'[i + k]? = some r ∧ offset < seekPos cs pos k ∧
         ∀ j < k, seekPos cs pos j ≤ offset)) := by
  induction n with
  | zero =>
    intro fs l i x pos _ h hx _ hn
    have h1 := h.length_lt
    have h2 := (List.getElem?_eq_some_iff.mp hx).1
    omega
  | succ n ih =>
    intro fs l i x pos hm h hx hpos hn
    have hpos0 : seekPos cs pos 0 = pos := by
      rw [seekPos, Nat.zero_mul, Nat.add_zero, Nat.mod_eq_of_lt hpos]
    by_cases hle : pos ≤ offset
    · -- the recursive call, from the state `chain_step` leaves
      have hrec : ∀ {fs1 : Fat16} {l1 : List ℕ} {y : ℕ}, chainStep x fs = some (y, fs1) →
          fs.Grows fs1 c l l1 → l1[i + 1]? = some y →
          ∃ r fs' l', writeSeek cs offset (n + 1) pos x fs = some (r, fs') ∧
            fs.Grows fs' c l l' ∧
            ((r = 0 ∧ fs'.freeList = [] ∧ ∃ k, l'.length = i + k + 1 ∧
                ∀ j ≤ k, seekPos cs pos j ≤ offset) ∨
             (∃ k, l'[i + k]? = some r ∧ offset < seekPos cs pos k ∧
               ∀ j < k, seekPos cs pos j ≤ offset)) := by
        intro fs1 l1 y hstep hext hy
        have hy0 : y ≠ 0 := hext.heads.ne_zero (List.mem_of_getElem? hy)
        have hpos' : (pos + cs) % 2 ^ 32 < 2 ^ 32 := Nat.mod_lt _ (by norm_num)
        obtain ⟨r, fs', l', hrun, hext', hcase⟩ :=
          ih (i := i + 1) hext.mounted hext.heads hy hpos' (by omega)
        refine ⟨r, fs', l', ?_, hext.trans hext', ?_⟩
        · simp only [writeSeek, hle, if_true, Prog.bind_apply, hstep, Prog.obind_some, hy0,
            if_false]
          exact hrun
        · -- positions shift by one step
          rcases hcase with ⟨h1, h2, k, hk, hj⟩ | ⟨k, hk, hlt, hj⟩
          · refine .inl ⟨h1, h2, k + 1, by omega, ?_⟩
            intro j hjk
            cases j with
            | zero => rw [hpos0]; exact hle
            | succ j =>
              rw [← seekPos_succ]
              exact hj j (by omega)
          · refine .inr ⟨k + 1, ?_, ?_, ?_⟩
            · rw [← hk]
              congr 1
              omega
            · rw [← seekPos_succ]
              exact hlt
            · intro j hjk
              cases j with
              | zero => rw [hpos0]; exact hle
              | succ j =>
                rw [← seekPos_succ]
                exact hj j (by omega)
      rcases chainStep_ok hm h hx with ⟨y, hy, hstep⟩ | ⟨hlast, hfull, hstep⟩ | ⟨hlast, a, hstep, hext⟩
      · exact hrec hstep (.refl hm h) hy
      · refine ⟨0, fs, l, ?_, .refl hm h, .inl ⟨rfl, hfull, 0, by omega, ?_⟩⟩
        · simp only [writeSeek, hle, if_true, Prog.bind_apply, hstep, Prog.obind_some,
            Prog.pure_apply]
        · intro j hj
          obtain rfl : j = 0 := by omega
          rw [hpos0]
          exact hle
      · refine hrec hstep hext ?_
        rw [hlast]
        simp
    · refine ⟨x, fs, l, ?_, .refl hm h, .inr ⟨0, hx, ?_, ?_⟩⟩
      · simp only [writeSeek, hle, if_false, Prog.pure_apply]
      · rw [hpos0]
        omega
      · intro j hj
        omega

/-! ### The data loops leave everything else alone -/

/-- `fs'` differs from `fs` at most in the `n` sectors from `lba` on. -/
structure Fat16.SectorsOnly (fs fs' : Fat16) (lba n : ℕ) : Prop where
  rest : fs' = { fs with disk := fs'.disk }
  disk : ∀ b, ¬(lba ≤ b ∧ b < lba + n) → fs'.disk b = fs.disk b

namespace Fat16.SectorsOnly

variable {fs fs' : Fat16} {lba n : ℕ}

theorem refl (fs : Fat16) (lba n : ℕ) : fs.SectorsOnly fs lba n := ⟨rfl, fun _ _ => rfl⟩

theorem header (h : fs.SectorsOnly fs' lba n) : fs'.header = fs.header := by rw [h.rest]

theorem readOnly (h : fs.SectorsOnly fs' lba n) : fs'.readOnly = fs.readOnly := by rw [h.rest]

theorem noFaults (h : fs.SectorsOnly fs' lba n) (hf : fs.NoFaults) : fs'.NoFaults := by
  rw [h.rest]
  exact ⟨hf.io, hf.alloc⟩

theorem fatAt (h : fs.SectorsOnly fs' lba n) (hs : fs.header.Sound)
    (hlba : fs.header.rootDirLba ≤ lba) {d : ℕ} (hd : d ≤ fs.header.lastCluster) :
    fs'.fatAt d = fs.fatAt d := by
  have h1 := hs.entry_lt hd
  have h2 := FatHeader.copy_lt_root (h := fs.header) (f := 0) (s := d * 2 / 512) hs.fats (by omega)
  unfold Fat16.fatAt
  rw [h.header, h.disk _ (by omega)]

theorem cacheAgrees (h : fs.SectorsOnly fs' lba n) (hs : fs.header.Sound) (hc : fs.CacheAgrees)
    (hlba : fs.header.rootDirLba ≤ lba) : fs'.CacheAgrees := by
  intro cache hcache j hj
  have hbytes : fs.header.fatBytes = fs.header.fatSize16.toNat * 512 := by
    simp [FatHeader.fatBytes, hs.bps_eq]
  rw [h.header] at hj ⊢
  have h2 := FatHeader.copy_lt_root (h := fs.header) (f := 0) (s := j / 512) hs.fats (by omega)
  rw [h.disk _ (by omega)]
  rw [h.rest] at hcache
  exact hc cache hcache j hj

theorem mounted (h : fs.SectorsOnly fs' lba n) (hm : fs.Mounted)
    (hlba : fs.header.rootDirLba ≤ lba) : fs'.Mounted where
  sound := by rw [h.header]; exact hm.sound
  cache := h.cacheAgrees hm.sound hm.cache hlba
  noFaults := h.noFaults hm.noFaults

/-- Writing data into a cluster of a chain. -/
theorem toExtends {c x : ℕ} {l : List ℕ} (h : fs.SectorsOnly fs' (fs.header.clusterToLba x) fs.header.spc)
    (hm : fs.Mounted) (hc : fs.Heads c l) (hx : x ∈ l) : fs.Extends fs' c l l := by
  have hroot : fs.header.rootDirLba ≤ fs.header.clusterToLba x :=
    FatHeader.rootDir_le_clusterToLba (hc.min_le hx)
  exact
    { header := h.header
      readOnly := h.readOnly
      mounted := h.mounted hm hroot
      heads := hc.congr h.header fun y hy => h.fatAt hm.sound hroot (hc.inside hy)
      fresh := ⟨[], by simp⟩
      fat := fun b hb _ => h.fatAt hm.sound hroot hb
      disk := by
        intro lba hlba hout
        apply h.disk
        rintro ⟨h1, h2⟩
        exact hout x hx (lba - fs.header.clusterToLba x) (by omega) (by omega) }

end Fat16.SectorsOnly

/-- How many bytes of the transfer go into the current sector. -/
def chunkOf (sectorSize count : ℕ) (t : Transfer) : ℕ :=
  if sectorSize - t.skip < count - t.done then sectorSize - t.skip else (count - t.done) % 2 ^ 32

/-- The sector after its chunk: a whole-sector chunk does not read the old contents. -/
def chunkSector (sectorSize count : ℕ) (t : Transfer) (old : Buf) : Buf :=
  splice (if t.skip ≠ 0 ∨ chunkOf sectorSize count t ≠ sectorSize then old else fun _ => 0) t.skip
    (fun j => t.buf (t.done + j)) (chunkOf sectorSize count t)

/-- The transfer after its chunk. -/
def chunkNext (sectorSize count : ℕ) (t : Transfer) : Transfer :=
  { t with skip := 0, done := (t.done + chunkOf sectorSize count t) % 2 ^ 32 }

/-- One turn of the sector loop that writes. -/
theorem writeSectors_step {ss count n lba : ℕ} {t : Transfer} (hf : fs.NoFaults)
    (hdone : t.done < count) (hskip : ¬ss ≤ t.skip) :
    writeSectors ss count (n + 1) lba t fs =
      writeSectors ss count n (lba + 1) (chunkNext ss count t)
        (fs.setSector lba (chunkSector ss count t (fs.disk lba))) := by
  by_cases hpart : t.skip ≠ 0 ∨ chunkOf ss count t ≠ ss
  · have hpart' := hpart
    unfold chunkOf at hpart'
    simp only [writeSectors, hdone, hskip, if_true, if_false, hpart', Prog.bind_apply,
      blkDevRead_ok hf, Prog.obind_some, blkDevWrite_ok hf, chunkSector, hpart]
    rfl
  · have hpart' := hpart
    unfold chunkOf at hpart'
    simp only [writeSectors, hdone, hskip, if_true, if_false, hpart', Prog.bind_apply,
      Prog.pure_apply, Prog.obind_some, blkDevWrite_ok hf, chunkSector, hpart]
    rfl

theorem writeSectors_frame (ss count n : ℕ) : ∀ {fs : Fat16} (lba : ℕ) (t : Transfer),
    fs.NoFaults → t.failed = false →
    ∃ t' fs', writeSectors ss count n lba t fs = some (t', fs') ∧ t'.failed = false ∧
      fs.SectorsOnly fs' lba n := by
  induction n with
  | zero =>
    intro fs lba t _ ht
    exact ⟨t, fs, rfl, ht, .refl fs lba 0⟩
  | succ n ih =>
    intro fs lba t hf ht
    by_cases hdone : t.done < count
    · by_cases hskip : ss ≤ t.skip
      · obtain ⟨t', fs', hrun, hfail, hframe⟩ :=
          ih (lba + 1) { t with skip := t.skip - ss } hf ht
        refine ⟨t', fs', ?_, hfail, hframe.rest, fun b hb => hframe.disk b (by omega)⟩
        simp only [writeSectors, hdone, hskip, if_true]
        exact hrun
      · -- one sector is written, the rest of the loop touches only later ones
        obtain ⟨t', fs', hrun, hfail, hframe⟩ := ih (lba + 1) (chunkNext ss count t)
          (Fat16.setSector_noFaults hf lba (chunkSector ss count t (fs.disk lba))) ht
        refine ⟨t', fs', (writeSectors_step hf hdone hskip).trans hrun, hfail, ?_, ?_⟩
        · rw [hframe.rest]
          rfl
        · intro b hb
          rw [hframe.disk b (by omega), Fat16.setSector_disk_ne (by omega)]
    · refine ⟨t, fs, ?_, ht, .refl fs lba (n + 1)⟩
      simp only [writeSectors, hdone, if_false, Prog.pure_apply]

/-! ### The rounds of the data loop -/

theorem writeClusters_done {count n x : ℕ} {t : Transfer} (h : ¬t.done < count) :
    writeClusters count (n + 1) x t fs = some (t, fs) := by
  simp only [writeClusters, h, if_false, Prog.pure_apply]

section Round

variable {fs1 fs2 : Fat16} {count n x y : ℕ} {t t1 : Transfer} (hdone : t.done < count)
  (hrun : writeSectors fs.header.bps count fs.header.spc (fs.header.clusterToLba x) t fs = some (t1, fs1))

include hdone hrun

theorem writeClusters_failed (hfail : t1.failed = true) :
    writeClusters count (n + 1) x t fs = some (t1, fs1) := by
  simp only [writeClusters, hdone, if_true, Prog.bind_apply, Prog.get_apply, Prog.obind_some, hrun, hfail,
    Prog.pure_apply]

theorem writeClusters_last (hfail : t1.failed = false) (hmore : ¬t1.done < count) :
    writeClusters count (n + 1) x t fs = some (t1, fs1) := by
  simp only [writeClusters, hdone, if_true, Prog.bind_apply, Prog.get_apply, Prog.obind_some, hrun, hfail,
    Bool.false_eq_true, if_false, hmore, Prog.pure_apply]

/-- More is to be written: the loop goes on where `chain_step` leads, or ends with it. -/
theorem writeClusters_step (hfail : t1.failed = false) (hmore : t1.done < count)
    (hstep : chainStep x fs1 = some (y, fs2)) :
    writeClusters count (n + 1) x t fs = if y = 0 then some (t1, fs2) else writeClusters count n y t1 fs2 := by
  simp only [writeClusters, hdone, if_true, Prog.bind_apply, Prog.get_apply, Prog.obind_some, hrun, hfail,
    Bool.false_eq_true, if_false, hmore, hstep, Prog.ite_apply, Prog.pure_apply]

end Round

/-- **The data loop** ends for every length and only prolongs the chain and rewrites its data. -/
theorem writeClusters_frame (count n : ℕ) : ∀ {fs : Fat16} {l : List ℕ} {i x : ℕ}
    (t : Transfer), fs.Mounted → fs.Heads c l → l[i]? = some x → t.failed = false →
    CLUSTER_STEPS ≤ i + n →
    ∃ t' fs' l', writeClusters count n x t fs = some (t', fs') ∧ fs.Extends fs' c l l' := by
  induction n with
  | zero =>
    intro fs l i x t _ h hx _ hn
    have h1 := h.length_lt
    have h2 := (List.getElem?_eq_some_iff.mp hx).1
    omega
  | succ n ih =>
    intro fs l i x t hm h hx ht hn
    by_cases hdone : t.done < count
    · obtain ⟨t1, fs1, hrun1, hfail1, hframe⟩ := writeSectors_frame
        fs.header.bps count fs.header.spc (fs.header.clusterToLba x) t hm.noFaults ht
      have hext1 := hframe.toExtends hm h (List.mem_of_getElem? hx)
      by_cases hmore : t1.done < count
      · rcases chainStep_ok hext1.mounted hext1.heads hx with
          ⟨y, hy, hstep⟩ | ⟨-, -, hstep⟩ | ⟨hlast, a, hstep, hext2⟩
        · have hy0 : y ≠ 0 := hext1.heads.ne_zero (List.mem_of_getElem? hy)
          obtain ⟨t', fs', l', hrun, hext⟩ :=
            ih (i := i + 1) t1 hext1.mounted hext1.heads hy hfail1 (by omega)
          refine ⟨t', fs', l', ?_, hext1.trans hext⟩
          rw [writeClusters_step hdone hrun1 hfail1 hmore hstep, if_neg hy0]
          exact hrun
        · refine ⟨t1, fs1, l, ?_, hext1⟩
          rw [writeClusters_step hdone hrun1 hfail1 hmore hstep, if_pos rfl]
        · have ha : a ∈ l ++ [a] := by simp
          have ha0 : a ≠ 0 := hext2.heads.ne_zero ha
          have hget : (l ++ [a])[i + 1]? = some a := by rw [hlast]; simp
          obtain ⟨t', fs', l', hrun, hext⟩ :=
            ih (i := i + 1) t1 hext2.mounted hext2.heads hget hfail1 (by omega)
          refine ⟨t', fs', l', ?_, (hext1.trans hext2.toExtends).trans hext⟩
          rw [writeClusters_step hdone hrun1 hfail1 hmore hstep, if_neg ha0]
          exact hrun
      · exact ⟨t1, fs1, l, writeClusters_last hdone hrun1 hfail1 hmore, hext1⟩
    · exact ⟨t, fs, l, writeClusters_done hdone, .refl hm h⟩

/-! ### The whole call -/

/-- The first cluster `c` has the chain `l`; `0` has none. -/
def Fat16.Owns (fs : Fat16) (c : ℕ) (l : List ℕ) : Prop := (c = 0 ∧ l = []) ∨ fs.Heads c l

/-- The inode with another first cluster. -/
def Inode.withCluster (ino : Inode) (c : ℕ) : Inode :=
  { ino with ent := { ino.ent with firstClusterLow := UInt16.ofNat c } }

theorem Inode.withCluster_self (ino : Inode) : ino.withCluster ino.ent.cluster = ino := by
  simp [Inode.withCluster, Fat16Directory.cluster]

theorem Inode.withCluster_cluster (ino : Inode) {c : ℕ} (hc : c < 65536) :
    (ino.withCluster c).ent.cluster = c := by
  simp only [Inode.withCluster, Fat16Directory.cluster, UInt16.toNat_ofNat']
  omega

theorem Fat16.Heads.head_lt (h : fs.Heads c l) : c < 65536 := by
  have h1 := h.inside h.head_mem
  have h2 := fs.header.lastCluster_le
  have h3 : FAT16_CLUSTER_MAX < 65536 := by decide
  omega

/-- The first cluster of a write: the file's own, or a fresh one. -/
theorem writeFirst_ok {ino : Inode} (hm : fs.Mounted) (hown : fs.Owns ino.ent.cluster l) :
    (ino.ent.cluster = 0 ∧ l = [] ∧ fs.freeList = [] ∧ writeFirst ino fs = some (none, fs)) ∨
    (ino.ent.cluster = 0 ∧ l = [] ∧ ∃ a,
      writeFirst ino fs = some (some (ino.withCluster a), fs.setFat a FAT16_EOC) ∧
      fs.Grows (fs.setFat a FAT16_EOC) a l [a]) ∨
    (fs.Heads ino.ent.cluster l ∧
      writeFirst ino fs = some (some (ino.withCluster ino.ent.cluster), fs)) := by
  rcases hown with ⟨hzero, rfl⟩ | hheads
  · cases hlist : fs.freeList with
    | cons a m =>
      refine .inr (.inl ⟨hzero, rfl, a, ?_, .of_single hm hlist⟩)
      simp only [writeFirst, hzero, if_true, Prog.bind_apply, fat16ClusterAlloc_cons hm hlist, Prog.obind_some,
        Prog.pure_apply]
      rfl
    | nil =>
      refine .inl ⟨hzero, rfl, rfl, ?_⟩
      simp only [writeFirst, hzero, if_true, Prog.bind_apply, fat16ClusterAlloc_nil hm.readable hlist, Prog.obind_some,
        Prog.pure_apply]
  · refine .inr (.inr ⟨hheads, ?_⟩)
    rw [Inode.withCluster_self]
    simp only [writeFirst, hheads.head_ne_zero, if_false, Prog.pure_apply]

/-- The value `fat16_write` returns after `done` bytes. -/
def writeResult (done : ℕ) : ℤ := if 0 < done then (done : ℤ) else -1

/-- A write that finds no first cluster. -/
theorem fat16Write_no_first {now : DosStamp} {ino : Inode} {buf : Buf} {count offset : ℕ} {fs1 : Fat16}
    (hdir : isDir ino.ent = false) (hro : fs.readOnly = false) (hcount : count ≠ 0)
    (hfirst : writeFirst ino fs = some (none, fs1)) :
    fat16Write now ino buf count offset fs = some ((-1, ino), fs1) := by
  unfold fat16Write
  generalize 2 ^ 32 = steps
  simp only [Prog.bind_apply, Prog.get_apply, Prog.obind_some, hdir, hro, Bool.or_self,
    Bool.false_eq_true, if_false, hcount, hfirst, Prog.pure_apply]

/-- A write whose positioning fails. -/
theorem fat16Write_seek_failed {now : DosStamp} {ino ino1 : Inode} {buf : Buf} {count offset : ℕ}
    {fs1 fs2 : Fat16} (hdir : isDir ino.ent = false) (hro : fs.readOnly = false) (hcount : count ≠ 0)
    (hfirst : writeFirst ino fs = some (some ino1, fs1))
    (hseek : writeSeek fs.header.clusterSize (offset % 2 ^ 32) (2 ^ 32)
      (fs.header.clusterSize % 2 ^ 32) ino1.ent.cluster fs1 = some (0, fs2)) :
    fat16Write now ino buf count offset fs = some ((-1, ino1), fs2) := by
  unfold fat16Write
  generalize 2 ^ 32 = steps at hseek ⊢
  simp only [Prog.bind_apply, Prog.get_apply, Prog.obind_some, hdir, hro, Bool.or_self,
    Bool.false_eq_true, if_false, hcount, hfirst, hseek, if_true, Prog.pure_apply]

/-- An offset in the first cluster needs no step. -/
theorem writeSeek_first (clusterSize : ℕ) {offset : ℕ} (h : ¬clusterSize % 2 ^ 32 ≤ offset) (c : ℕ) (fs : Fat16) :
    writeSeek clusterSize offset (2 ^ 32) (clusterSize % 2 ^ 32) c fs = some (c, fs) := by
  obtain ⟨n, hn⟩ : ∃ n, (2 : ℕ) ^ 32 = n + 1 := ⟨2 ^ 32 - 1, by omega⟩
  generalize clusterSize % 2 ^ 32 = pos at h ⊢
  rw [hn]
  simp only [writeSeek, h, if_false, Prog.pure_apply]

/-- The write behind a successful positioning: the data, then the slot of the file. -/
theorem fat16Write_eq {now : DosStamp} {ino ino1 : Inode} {buf : Buf} {count offset r : ℕ} {fs1 fs2 : Fat16}
    (hdir : isDir ino.ent = false) (hro : fs.readOnly = false)
    (hcount : count ≠ 0) (hfirst : writeFirst ino fs = some (some ino1, fs1))
    (hseek : writeSeek fs.header.clusterSize (offset % 2 ^ 32) (2 ^ 32)
      (fs.header.clusterSize % 2 ^ 32) ino1.ent.cluster fs1 = some (r, fs2)) (hr : r ≠ 0) :
    fat16Write now ino buf count offset fs =
      (writeClusters count (count + CLUSTER_STEPS) r ⟨offset % 2 ^ 32 % fs.header.clusterSize, 0, false, buf⟩ fs2).bind
        fun p => (fat16DirWrite (ino1.written now offset p.1.done).loc (ino1.written now offset p.1.done).ent p.2).bind
          fun q => some ((writeResult p.1.done, ino1.written now offset p.1.done), q.2) := by
  unfold fat16Write
  generalize 2 ^ 32 = steps at hseek ⊢
  generalize CLUSTER_STEPS = steps'
  simp only [Prog.bind_apply, Prog.get_apply, Prog.obind_some, hdir, hro, Bool.or_self,
    Bool.false_eq_true, if_false, hcount, hfirst, hseek, hr, Prog.pure_apply]
  rfl

/-- A write that reaches its offset. -/
theorem fat16Write_out {now : DosStamp} {ino ino1 : Inode} {buf : Buf} {count offset r : ℕ}
    {t : Transfer} {fs1 fs2 fs3 fs4 : Fat16} {ok : Bool} (hdir : isDir ino.ent = false) (hro : fs.readOnly = false)
    (hcount : count ≠ 0) (hfirst : writeFirst ino fs = some (some ino1, fs1))
    (hseek : writeSeek fs.header.clusterSize (offset % 2 ^ 32) (2 ^ 32)
      (fs.header.clusterSize % 2 ^ 32) ino1.ent.cluster fs1 = some (r, fs2)) (hr : r ≠ 0)
    (hdata : writeClusters count (count + CLUSTER_STEPS) r
      ⟨offset % 2 ^ 32 % fs.header.clusterSize, 0, false, buf⟩ fs2 = some (t, fs3))
    (hslot : fat16DirWrite (ino1.written now offset t.done).loc (ino1.written now offset t.done).ent fs3 =
      some (ok, fs4)) :
    fat16Write now ino buf count offset fs =
      some ((writeResult t.done, ino1.written now offset t.done), fs4) := by
  rw [fat16Write_eq hdir hro hcount hfirst hseek hr, hdata, Prog.obind_some, hslot, Prog.obind_some]

/-- **What any write does to the volume**, whatever its offset and length: nothing; or it prolongs the file's
chain and fails; or it prolongs the chain and rewrites the file's slot. -/
theorem fat16Write_frame {ino : Inode} (hm : fs.Mounted) (hdir : isDir ino.ent = false)
    (hro : fs.readOnly = false) (hown : fs.Owns ino.ent.cluster l) (now : DosStamp) (buf : Buf)
    {count : ℕ} (hcount : count ≠ 0) (offset : ℕ) :
    fat16Write now ino buf count offset fs = some ((-1, ino), fs) ∨
    (∃ c fs' l', fs.Extends fs' c l l' ∧
      fat16Write now ino buf count offset fs = some ((-1, ino.withCluster c), fs')) ∨
    (∃ c fs' l' done, fs.Extends fs' c l l' ∧
      fat16Write now ino buf count offset fs =
        some ((writeResult done, (ino.withCluster c).written now offset done),
          fs'.setEntry ino.loc ((ino.withCluster c).written now offset done).ent)) := by
  -- everything after the first cluster is at hand
  have hrest : ∀ {c fs1 l1}, writeFirst ino fs = some (some (ino.withCluster c), fs1) →
      fs.Extends fs1 c l l1 →
      (∃ c fs' l', fs.Extends fs' c l l' ∧
        fat16Write now ino buf count offset fs = some ((-1, ino.withCluster c), fs')) ∨
      (∃ c fs' l' done, fs.Extends fs' c l l' ∧
        fat16Write now ino buf count offset fs =
          some ((writeResult done, (ino.withCluster c).written now offset done),
            fs'.setEntry ino.loc ((ino.withCluster c).written now offset done).ent)) := by
    intro c fs1 l1 hfirst hext
    obtain ⟨m, hl1⟩ := hext.heads.head
    have hget : l1[0]? = some c := by rw [hl1]; rfl
    have hcluster := ino.withCluster_cluster hext.heads.head_lt
    have hpos : fs.header.clusterSize % 2 ^ 32 < 2 ^ 32 := Nat.mod_lt _ (by norm_num)
    obtain ⟨r, fs2, l2, hseek, hext2, hcase⟩ := writeSeek_ok
      fs.header.clusterSize (offset % 2 ^ 32) (2 ^ 32) hext.mounted hext.heads hget hpos (by decide)
    rw [← hcluster] at hseek
    by_cases hr : r = 0
    · subst hr
      exact .inl ⟨c, fs2, l2, hext.trans hext2.toExtends,
        fat16Write_seek_failed hdir hro hcount hfirst hseek⟩
    · obtain ⟨k, hk⟩ : ∃ k, l2[k]? = some r := by
        rcases hcase with ⟨h0, -⟩ | ⟨k, hk, -⟩
        · exact absurd h0 hr
        · exact ⟨0 + k, hk⟩
      obtain ⟨t, fs3, l3, hdata, hext3⟩ := writeClusters_frame
        count (count + CLUSTER_STEPS) ⟨offset % 2 ^ 32 % fs.header.clusterSize, 0, false, buf⟩
        hext2.mounted hext2.heads hk rfl (by omega)
      refine .inr ⟨c, fs3, l3, t.done, (hext.trans hext2.toExtends).trans hext3, ?_⟩
      have hloc : ((ino.withCluster c).written now offset t.done).loc = ino.loc := by
        unfold Inode.written
        split <;> split <;> rfl
      rw [← hloc]
      exact fat16Write_out hdir hro hcount hfirst hseek hr hdata (fat16DirWrite_ok hext3.mounted.noFaults _ _)
  rcases writeFirst_ok hm hown with ⟨-, -, -, hfirst⟩ | ⟨-, rfl, a, hfirst, hext⟩ | ⟨hheads, hfirst⟩
  · exact .inl (fat16Write_no_first hdir hro hcount hfirst)
  · exact .inr (hrest hfirst hext.toExtends)
  · exact .inr (hrest hfirst (.refl hm hheads))

end LizardOs.Fat
