import LizardOs.Fat.TableRuns

/-!
# Freeing a chain in any table

`fat16_chain_free` frees a cluster before it goes on, so that a cluster it meets again reads as free and ends the walk.
It therefore returns on every table, also when the links from the first cluster run into a cycle, and frees the clusters
of the walk and no others (`fat16ChainFree_exact`).
-/

namespace LizardOs.Fat

open LizardOs.Lib

namespace Fat16

theorem freeAll_append (l l' : List ℕ) : ∀ fs : Fat16, fs.freeAll (l ++ l') = (fs.freeAll l).freeAll l' := by
  induction l with
  | nil => exact fun fs => rfl
  | cons c l ih => exact fun fs => ih _

/-- The entries of a FAT copy after the clusters of a list were freed. -/
theorem copyAt_freeAll {l : List ℕ} {f d : ℕ} : ∀ {fs : Fat16}, fs.header.Tabled → (∀ x ∈ l, fs.header.InTable x) →
    f < fs.header.numFats.toNat → fs.header.InTable d →
    (fs.freeAll l).copyAt f d = if d ∈ l then FAT16_FREE_CLUSTER else fs.copyAt f d := by
  induction l with
  | nil =>
    intro fs _ _ _ _
    rw [freeAll, if_neg List.not_mem_nil]
  | cons c l ih =>
    intro fs ht hl hf hd
    have hrest := @ih (fs.setFat c FAT16_FREE_CLUSTER) (by rw [setFat_header]; exact ht)
      (fun x hx => by rw [setFat_header]; exact hl x (List.mem_cons_of_mem _ hx)) (by rw [setFat_header]; exact hf)
      (by rw [setFat_header]; exact hd)
    rw [freeAll, hrest, copyAt_setFat ht (hl c List.mem_cons_self) (by decide) hf hd]
    by_cases hdl : d ∈ l
    · rw [if_pos hdl, if_pos (List.mem_cons_of_mem _ hdl)]
    · rw [if_neg hdl]
      by_cases hdc : d = c
      · rw [if_pos hdc, if_pos (by rw [hdc]; exact List.mem_cons_self)]
      · rw [if_neg hdc, if_neg (by simp [hdc, hdl])]

end Fat16

/-- Where the valid links stay in the table, so does a walk that starts in it. -/
theorem inTable_of_path {h : FatHeader} {m : ℕ → ℕ} {l : List ℕ} {t : ℕ}
    (hlinks : ∀ c, h.InTable c → fat16ClusterValid (m c) = true → h.InTable (m c)) : ∀ {c : ℕ},
    Path m fat16ClusterValid c l t → (fat16ClusterValid c = true → h.InTable c) → ∀ x ∈ l, h.InTable x := by
  induction l with
  | nil =>
    intro c _ _ x hx
    cases hx
  | cons a l ih =>
    intro c hp hc x hx
    obtain ⟨rfl, hok, hp⟩ := hp
    rcases List.mem_cons.mp hx with rfl | hx
    · exact hc hok
    · exact ih hp (hlinks c (hc hok)) x hx

theorem lt_of_fat16ClusterValid {c : ℕ} (h : fat16ClusterValid c = true) : c < 65520 := by
  rw [fat16ClusterValid, Bool.and_eq_true, decide_eq_true_eq, decide_eq_true_eq] at h
  exact Nat.lt_succ_of_le h.2

/-- The loop frees the clusters of the walk; one that it meets again it frees again. -/
theorem fat16ChainFree_trail {fs : Fat16} {m : ℕ → ℕ} {first t : ℕ} {l : List ℕ} (h : fs.Keeps m)
    (htrail : Trail m fat16ClusterValid first l t) (hl : ∀ x ∈ l, fs.header.InTable x) :
    ∃ l', (∀ c, c ∈ l' ↔ c ∈ l) ∧ fat16ChainFree first fs = some (true, fs.freeAll l') := by
  have hsteps : l.length ≤ 65520 :=
    nodup_length_le htrail.nodup fun c hc => lt_of_fat16ClusterValid (htrail.path.ok_of_mem hc)
  obtain ⟨n, hn⟩ : ∃ n, CLUSTER_STEPS = l.length + (n + 2) := ⟨CLUSTER_STEPS - l.length - 2, by rw [CLUSTER_STEPS]; omega⟩
  rw [fat16ChainFree, hn, chainFreeFrom_path (n + 2) h htrail.path htrail.nodup hl]
  rcases htrail.ends with hinvalid | hmet
  · refine ⟨l, fun _ => Iff.rfl, ?_⟩
    simp only [chainFreeFrom, hinvalid, Bool.false_eq_true, if_false, Prog.pure_apply]
  · -- the cluster was freed before: its entry is 0, and 0 is no valid cluster
    have hkeeps := h.freeAll hl
    have hvalid := htrail.path.ok_of_mem hmet
    have hget := hkeeps.get (c := t) (by rw [Fat16.freeAll_header]; exact hl t hmet)
    have hzero : fat16ClusterValid FAT16_FREE_CLUSTER = false := rfl
    rw [if_pos hmet] at hget
    refine ⟨l ++ [t], fun c => ?_, ?_⟩
    · rw [List.mem_append, List.mem_singleton]
      exact ⟨fun hc => hc.elim id fun hct => hct ▸ hmet, .inl⟩
    · simp only [chainFreeFrom, hvalid, if_true, Prog.bind_apply, hget, Prog.obind_some,
        fat16FatSet_tabled hkeeps.io hkeeps.tabled, hzero, Bool.false_eq_true, if_false, Prog.pure_apply]
      rw [Fat16.freeAll_append]
      rfl

/-- **`fat16_chain_free` on any table.**  Let the valid links and the first cluster stay in the table.  There is a walk
from the first cluster to the first value that is no cluster or was met before; the call returns 0, and afterwards the
entries of the walk are free and all others are as they were, as lookups report them and in every FAT copy. -/
theorem fat16ChainFree_exact {fs : Fat16} {first : ℕ} (ht : fs.header.Tabled) (hagree : fs.CacheAgrees)
    (hio : fs.ioFaults = [])
    (hlinks : ∀ c, fs.header.InTable c → fat16ClusterValid (fs.fatAt c) = true → fs.header.InTable (fs.fatAt c))
    (hfirst : fat16ClusterValid first = true → fs.header.InTable first) :
    (∃ l t, Trail fs.fatAt fat16ClusterValid first l t) ∧
    ∀ l t, Trail fs.fatAt fat16ClusterValid first l t →
      ∃ fs', fat16ChainFree first fs = some (true, fs') ∧
        (∀ c, fs.header.InTable c →
          fat16FatGet c fs' = some (some (if c ∈ l then FAT16_FREE_CLUSTER else fs.fatAt c), fs')) ∧
        ∀ f < fs.header.numFats.toNat, ∀ c, fs.header.InTable c →
          fs'.copyAt f c = if c ∈ l then FAT16_FREE_CLUSTER else fs.copyAt f c := by
  have hkeeps : fs.Keeps fs.fatAt := ⟨ht, hagree, hio, fun _ _ => rfl⟩
  refine ⟨exists_trail (fun c hc => lt_of_fat16ClusterValid hc) first, fun l t htrail => ?_⟩
  obtain ⟨l', hmem, hrun⟩ := fat16ChainFree_trail hkeeps htrail (inTable_of_path hlinks htrail.path hfirst)
  have hl' : ∀ x ∈ l', fs.header.InTable x := fun x hx => inTable_of_path hlinks htrail.path hfirst x ((hmem x).mp hx)
  refine ⟨fs.freeAll l', hrun, fun c hc => ?_, fun f hf c hc => ?_⟩
  · have hget := (hkeeps.freeAll hl').get (c := c) (by rw [Fat16.freeAll_header]; exact hc)
    simpa only [hmem] using hget
  · rw [Fat16.copyAt_freeAll ht hl' hf hc]
    simp only [hmem]

/-- `twoFatVolume` with a cycle of the clusters 2 and 3. -/
def loopVolume : Fat16 := (twoFatVolume.setFat 2 3).setFat 3 2

theorem loopVolume_header : loopVolume.header = twoFatVolume.header := by
  rw [loopVolume, Fat16.setFat_header, Fat16.setFat_header]

theorem loopVolume_keeps :
    loopVolume.Keeps (Function.update (Function.update (fun _ => 0) 2 3) 3 2) := by
  have hzero : ∀ c, twoFatVolume.header.InTable c → twoFatVolume.fatAt c = 0 := by
    intro c _
    have hdisk : twoFatVolume.disk (twoFatVolume.header.fatStartLba + c * 2 / 512) = fun _ => 0 := by
      funext j
      exact if_pos (by rw [show twoFatVolume.header.fatStartLba = 1 from rfl]; omega)
    rw [Fat16.fatAt, hdisk]
    rfl
  have hempty : twoFatVolume.Keeps fun _ => 0 :=
    ⟨⟨by decide, by decide⟩, fat16Mount_cacheAgrees twoFatDevice_mount (by decide), rfl, hzero⟩
  have hfirst := hempty.set (c := 2) (by decide) 3
  exact hfirst.set (c := 3) (by rw [Fat16.setFat_header]; decide) 2

/-- The cycle is freed. -/
theorem fat16ChainFree_exact_loop : ∃ fs', fat16ChainFree 2 loopVolume = some (true, fs') ∧
    fat16FatGet 2 fs' = some (some FAT16_FREE_CLUSTER, fs') ∧
    fat16FatGet 3 fs' = some (some FAT16_FREE_CLUSTER, fs') := by
  have hkeeps := loopVolume_keeps
  have hin : ∀ c, c ≤ 3 → loopVolume.header.InTable c := by
    rw [loopVolume_header]
    decide
  have hval : ∀ c, loopVolume.header.InTable c →
      loopVolume.fatAt c = if c = 3 then 2 else if c = 2 then 3 else 0 := by
    intro c hc
    rw [hkeeps.map c hc, Function.update_apply, Function.update_apply]
  have hlinks : ∀ c, loopVolume.header.InTable c → fat16ClusterValid (loopVolume.fatAt c) = true →
      loopVolume.header.InTable (loopVolume.fatAt c) := by
    intro c hc _
    refine hin _ ?_
    rw [hval c hc]
    split
    · decide
    · split <;> decide
  have hp2 := hval 2 (hin 2 (by decide))
  have hp3 := hval 3 (hin 3 (by decide))
  have htrail : Trail loopVolume.fatAt fat16ClusterValid 2 [2, 3] 2 :=
    ⟨⟨rfl, rfl, hp2, rfl, hp3⟩, by decide, .inr (by decide)⟩
  obtain ⟨fs', hrun, hget, -⟩ := (fat16ChainFree_exact hkeeps.tabled hkeeps.cache hkeeps.io hlinks
    (fun _ => hin 2 (by decide))).2 [2, 3] 2 htrail
  exact ⟨fs', hrun, hget 2 (hin 2 (by decide)), hget 3 (hin 3 (by decide))⟩

end LizardOs.Fat
