import LizardOs.Fat.Confined
import LizardOs.Fat.WalkEnds

/-!
# Chains that stay inside the volume

What a call touches is decided by the links of the table: from the first cluster on, whatever number `fat16_cluster_valid`
lets pass is followed.  `Fat16.ChainInside` says that all numbers met on the way are clusters of the volume.  A call that
starts in such a chain takes steps inside the volume only, under every pattern of failing transfers and allocations, so
that what lies behind the volume neither influences it nor changes (`Fat16.ChainInside.callsInside`).
-/

namespace LizardOs.Fat

open LizardOs.Lib

variable {fs fs' : Fat16} {h : FatHeader} {C : ℕ → Prop} {α κ : Type} {c d value : ℕ}

/-! ### Links and updates -/

namespace Fat16

/-- The link of a cluster in the table is in RAM, or in the first FAT copy. -/
theorem linkAt_of_inTable (hb : fs.header.bps = 512) (hd : fs.header.InTable d) :
    fs.linkAt d = (fs.fatCache.map fun cache => (le16 cache (d * 2)).toNat).getD (fs.fatAt d) := by
  have hin : d * FAT16_FAT_ENTRY_SIZE + FAT16_FAT_ENTRY_SIZE ≤ fs.header.fatBytes := by
    rw [← Nat.succ_mul]
    exact hd
  rw [linkAt, fatAt, hb]
  cases fs.fatCache with
  | none => rfl
  | some cache =>
    simp only [if_pos hin]
    rfl

/-- An update, complete or not, changes one link. -/
theorem linkAt_setFatCopies (ht : fs.header.Tabled) (hd : fs.header.InTable d) (hv : value < 65536) (k : ℕ) :
    (fs.setFatCopies c value k 0).linkAt d = fs.linkAt d ∨
      d = c ∧ (fs.setFatCopies c value k 0).linkAt d = value := by
  obtain ⟨hheader, hcache, -⟩ := setFatCopies_frame c value k fs 0
  rw [linkAt_of_inTable (by rw [hheader, ht.bps_eq]) (by rwa [hheader]), linkAt_of_inTable ht.bps_eq hd, hcache]
  cases fs.fatCache with
  | some cache => exact .inl rfl
  | none =>
    cases k with
    | zero => exact .inl rfl
    | succ k =>
      simp only [Option.map_none, Option.getD_none, fatAt_setFatCopies ht hv k hd]
      by_cases hdc : d = c
      · exact .inr ⟨hdc, if_pos hdc⟩
      · exact .inl (if_neg hdc)

/-- The update of the table in RAM changes one link. -/
theorem linkAt_setCache (fs : Fat16) (hb : fs.header.bps = 512) (hd : fs.header.InTable d) (hv : value < 65536) :
    (fs.setCache (c * 2) value).linkAt d = fs.linkAt d ∨ d = c ∧ (fs.setCache (c * 2) value).linkAt d = value := by
  rw [linkAt_of_inTable (by rw [setCache_header, hb]) (by rwa [setCache_header]), linkAt_of_inTable hb hd, fatAt, fatAt,
    setCache_header, setCache_disk]
  rw [setCache]
  cases hold : fs.fatCache with
  | none => exact .inl (by rw [hold])
  | some cache =>
    by_cases hin : c * 2 + FAT16_FAT_ENTRY_SIZE ≤ fs.header.fatBytes
    · simp only [if_pos hin, Option.map_some, Option.getD_some]
      by_cases hdc : d = c
      · subst hdc
        exact .inr ⟨rfl, le16_of_bytes hv (splice_inside (j := 0) (by decide)) (splice_inside (j := 1) (by decide))⟩
      · left
        congr 1
        apply le16_congr
        · exact splice_outside (by rw [FAT16_FAT_ENTRY_SIZE]; omega)
        · exact splice_outside (by rw [FAT16_FAT_ENTRY_SIZE]; omega)
    · exact .inl (by simp only [if_neg hin, hold])

theorem linkAt_setFat (ht : fs.header.Tabled) (hd : fs.header.InTable d) (hv : value < 65536) :
    (fs.setFat c value).linkAt d = fs.linkAt d ∨ d = c ∧ (fs.setFat c value).linkAt d = value := by
  obtain ⟨hheader, -⟩ := setFatCopies_frame c value fs.header.numFats.toNat fs 0
  rw [setFat]
  rcases linkAt_setCache (c := c) (fs.setFatCopies c value fs.header.numFats.toNat 0) (by rw [hheader, ht.bps_eq])
    (by rwa [hheader]) hv with hkept | hset
  · rw [hkept]
    exact linkAt_setFatCopies ht hd hv _
  · exact .inr hset

/-- The sectors from the root directory on hold no link. -/
theorem linkAt_of_front (ht : fs.header.Tabled) (hd : fs.header.InTable d) (hheader : fs'.header = fs.header)
    (hcache : fs'.fatCache = fs.fatCache) (hdisk : ∀ s < fs.header.rootDirLba, fs'.disk s = fs.disk s) :
    fs'.linkAt d = fs.linkAt d := by
  have hbd := hd.entry_lt ht
  have hroot := FatHeader.copy_lt_root (h := fs.header) (f := 0) (s := d * 2 / 512) ht.fats (by omega)
  rw [Nat.zero_mul, Nat.add_zero] at hroot
  rw [linkAt_of_inTable (by rw [hheader, ht.bps_eq]) (by rwa [hheader]), linkAt_of_inTable ht.bps_eq hd, fatAt, fatAt,
    hheader, hcache, hdisk _ hroot]

/-- **What an update does to the links**, whatever transfers fail. -/
theorem fat16FatSet_links (ht : fs.header.Tabled) (hv : value < 65536) {ok : Bool}
    (hrun : fat16FatSet c value fs = some (ok, fs')) : fs'.header = fs.header ∧
    ∀ d, fs.header.InTable d → fs'.linkAt d = fs.linkAt d ∨ d = c ∧ fs'.linkAt d = value := by
  obtain ⟨ok', fs'', hset, hdone, hfailed⟩ := fat16FatSet_cases ht.bps_eq c value
  obtain ⟨rfl, rfl⟩ := Prod.mk.inj (Option.some.inj (hset.symm.trans hrun))
  cases ok' with
  | true =>
    obtain ⟨rest, rfl⟩ := hdone rfl
    exact ⟨setFat_header fs c value, fun d hd => linkAt_setFat ht hd hv⟩
  | false =>
    obtain ⟨k, rest, rfl⟩ := hfailed rfl
    exact ⟨(setFatCopies_frame c value k fs 0).1, fun d hd => linkAt_setFatCopies ht hd hv k⟩

end Fat16

/-! ### Steps that keep the links closed -/

/-- The links of the clusters in `C` lead to clusters in `C`, and so does the allocator. -/
structure Fat16.Closed (h : FatHeader) (C : ℕ → Prop) (fs : Fat16) : Prop where
  header : fs.header = h
  links : ∀ c, C c → fat16ClusterValid (fs.linkAt c) = true → C (fs.linkAt c)
  free : ∀ c, FAT16_CLUSTER_MIN ≤ c → c ≤ h.lastCluster → fs.linkAt c = FAT16_FREE_CLUSTER → C c

/-- The steps: transfers of sectors of the root directory and of the data, allocations, lookups of clusters of the volume,
and updates that lead from a cluster in `C` to another or to none. -/
inductive ClosedStep (h : FatHeader) (C : ℕ → Prop) : ∀ α : Type, (α → Prop) → Fs α → Prop
  | read {s : ℕ} (hroot : h.rootDirLba ≤ s) (hs : s < h.totalSectors) :
      ClosedStep h C (Option Buf) (fun _ => True) (blkDevRead s)
  | write {s : ℕ} {buf : Buf} (hroot : h.rootDirLba ≤ s) (hs : s < h.totalSectors) :
      ClosedStep h C Bool (fun _ => True) (blkDevWrite s buf)
  | zalloc : ClosedStep h C Bool (fun _ => True) zalloc
  | fatGet {c : ℕ} (hmin : FAT16_CLUSTER_MIN ≤ c) (hc : c ≤ h.totalClusters + 1) :
      ClosedStep h C (Option ℕ) (fun r => ∀ v, r = some v → (C c → fat16ClusterValid v = true → C v) ∧
        (c ≤ h.lastCluster → v = FAT16_FREE_CLUSTER → C c)) (fat16FatGet c)
  | fatSet {c value : ℕ} (hc : C c) (hsmall : value < 65536) (hvalue : fat16ClusterValid value = true → C value) :
      ClosedStep h C Bool (fun _ => True) (fat16FatSet c value)

/-- A sector of the root directory or of the data. -/
abbrev FatHeader.InData (h : FatHeader) (s : ℕ) : Prop := h.rootDirLba ≤ s ∧ s < h.totalSectors

/-- The numbers in `C` are clusters of the volume. -/
def FatHeader.Clusters (h : FatHeader) (C : ℕ → Prop) : Prop :=
  ∀ c, C c → fat16ClusterValid c = true ∧ c ≤ h.totalClusters + 1

theorem FatHeader.lastCluster_le_total (h : FatHeader) : h.lastCluster ≤ h.totalClusters + 1 :=
  (Nat.min_le_left _ _).trans (Nat.mod_le _ _)

theorem valid_bounds (hc : fat16ClusterValid c = true) : FAT16_CLUSTER_MIN ≤ c ∧ c ≤ FAT16_CLUSTER_MAX := by
  rw [fat16ClusterValid, Bool.and_eq_true, decide_eq_true_eq, decide_eq_true_eq] at hc
  exact hc

section Closed

variable (hg : h.Geometry) (hC : h.Clusters C)
include hg hC

theorem roomy_closed :
    h.Roomy (Fat16.Closed h C) (ClosedStep h C) h.InData C where
  header := fun _ hfs => hfs.header
  read := fun _ hs => .read hs.1 hs.2
  write := fun _ _ hs => .write hs.1 hs.2
  zalloc := .zalloc
  cluster := hg.cluster
  root := fun j hj => ⟨Nat.le_add_right _ _, hg.root j hj⟩
  sectors := by
    intro c hc s hs
    obtain ⟨hvalid, hlast⟩ := hC c hc
    obtain ⟨hmin, -⟩ := valid_bounds hvalid
    exact ⟨(FatHeader.rootDir_le_clusterToLba hmin).trans (Nat.le_add_right _ s), hg.sectors c hmin hlast s hs⟩
  small := by
    intro c hc
    obtain ⟨-, hmax⟩ := valid_bounds (hC c hc).1
    rw [FAT16_CLUSTER_MAX] at hmax
    omega
  get := by
    intro c hc
    obtain ⟨hvalid, hlast⟩ := hC c hc
    have hstep : Within (Fat16.Closed h C) (ClosedStep h C) _ (fat16FatGet c) :=
      .step (.fatGet (valid_bounds hvalid).1 hlast)
    exact hstep.imp fun r hr v hv => (hr v hv).1 hc
  probe := by
    intro c hmin hlast
    have hstep : Within (Fat16.Closed h C) (ClosedStep h C) _ (fat16FatGet c) :=
      .step (.fatGet hmin (hlast.trans h.lastCluster_le_total))
    exact hstep.imp fun r hr hfree => (hr _ hfree).2 hlast rfl
  set := fun _ _ hc hsmall hvalue => .step (.fatSet hc hsmall hvalue)

omit hC in
theorem tabled (hfats : 0 < h.numFats.toNat) : h.Tabled := by
  refine ⟨UInt16.toNat_inj.mp ?_, hfats⟩
  exact hg.sector

/-- What a step leaves unless it updates the table. -/
theorem Fat16.Closed.of_links (hclosed : fs.Closed h C) (hheader : fs'.header = h)
    (hlinks : ∀ d, 0 < h.numFats.toNat → h.InTable d → fs'.linkAt d = fs.linkAt d) : fs'.Closed h C where
  header := hheader
  links := by
    intro c hc
    obtain ⟨hvalid, hlast⟩ := hC c hc
    obtain ⟨hfats, hin⟩ := hg.entries c (valid_bounds hvalid).1 hlast
    rw [hlinks c hfats hin]
    exact hclosed.links c hc
  free := by
    intro c hmin hlast
    obtain ⟨hfats, hin⟩ := hg.entries c hmin (hlast.trans h.lastCluster_le_total)
    rw [hlinks c hfats hin]
    exact hclosed.free c hmin hlast

theorem Fat16.Closed.same (hclosed : fs.Closed h C) (hsame : SameVolume fs fs') : fs'.Closed h C :=
  hclosed.of_links hg hC (hsame.header.trans hclosed.header) fun d _ _ => hsame.linkAt d

/-- **Every step keeps the links closed.** -/
theorem ClosedStep.keeps {Q : α → Prop} {m : Fs α} (hstep : ClosedStep h C α Q m) {a : α} (hclosed : fs.Closed h C)
    (hrun : m fs = some (a, fs')) : fs'.Closed h C ∧ Q a := by
  have hheader := hclosed.header
  cases hstep with
  | @read s hroot hs => exact ⟨hclosed.same hg hC (Looks.blkDevRead s fs a fs' (SameVolume.refl fs) hrun).1, trivial⟩
  | zalloc => exact ⟨hclosed.same hg hC (Looks.zalloc fs a fs' (SameVolume.refl fs) hrun).1, trivial⟩
  | @write s buf hroot hs =>
    refine ⟨?_, trivial⟩
    obtain ⟨rest, hwrite | hwrite⟩ := blkDevWrite_cases fs s buf
    · obtain ⟨-, rfl⟩ := Prod.mk.inj (Option.some.inj (hwrite.symm.trans hrun))
      exact hclosed.of_links hg hC hheader fun d _ _ => rfl
    · obtain ⟨-, rfl⟩ := Prod.mk.inj (Option.some.inj (hwrite.symm.trans hrun))
      refine hclosed.of_links hg hC hheader fun d hfats hin => ?_
      have ht : fs.header.Tabled := by
        rw [hheader]
        exact tabled hg hfats
      refine Fat16.linkAt_of_front ht (by rwa [hheader]) rfl rfl fun t ht => ?_
      rw [hheader] at ht
      exact Fat16.setSector_disk_ne (show t ≠ s by omega) buf
  | @fatGet c hmin hc =>
    obtain ⟨r, fs₁, hget, hsame, hlink⟩ := Settles.fat16FatGet c fs (SameVolume.refl fs)
    obtain ⟨rfl, rfl⟩ := Prod.mk.inj (Option.some.inj (hget.symm.trans hrun))
    refine ⟨hclosed.same hg hC hsame, fun v hv => ?_⟩
    rw [hlink v hv]
    exact ⟨hclosed.links c, hclosed.free c hmin⟩
  | @fatSet c value hc hsmall hvalue =>
    refine ⟨?_, trivial⟩
    obtain ⟨hvalid, hlast⟩ := hC c hc
    obtain ⟨hfats, hin⟩ := hg.entries c (valid_bounds hvalid).1 hlast
    have ht : fs.header.Tabled := by
      rw [hheader]
      exact tabled hg hfats
    obtain ⟨hsame, hlinks⟩ := Fat16.fat16FatSet_links ht hsmall hrun
    rw [hheader] at hsame hlinks
    refine ⟨hsame, fun d hd hvalid => ?_, fun d hmin hlast hfree => ?_⟩
    · obtain ⟨hdvalid, hdlast⟩ := hC d hd
      rcases hlinks d (hg.entries d (valid_bounds hdvalid).1 hdlast).2 with hkept | ⟨-, hset⟩
      · rw [hkept] at hvalid ⊢
        exact hclosed.links d hd hvalid
      · rw [hset] at hvalid ⊢
        exact hvalue hvalid
    · rcases hlinks d (hg.entries d hmin (hlast.trans h.lastCluster_le_total)).2 with hkept | ⟨rfl, -⟩
      · rw [hkept] at hfree
        exact hclosed.free d hmin hlast hfree
      · exact hc

/-- Taken apart into transfers, every step stays below the end of the volume. -/
theorem ClosedStep.inside {Q : α → Prop} {m : Fs α} (hstep : ClosedStep h C α Q m) :
    Inside h (fun _ => False) (fun _ => True) m := by
  cases hstep with
  | read hroot hs => exact .step (.read hs)
  | write hroot hs => exact .step (.write hs)
  | zalloc => exact .step .zalloc
  | fatGet hmin hc =>
    obtain ⟨hfats, hin⟩ := hg.entries _ hmin hc
    exact (hg.fatGet_inside hin hfats).imp fun _ _ => trivial
  | fatSet hc _ _ =>
    obtain ⟨hvalid, hlast⟩ := hC _ hc
    exact hg.fatSet_inside (hg.entries _ (valid_bounds hvalid).1 hlast).2 _

end Closed

/-! ### What lies behind the volume -/

/-- Two volumes that may differ in what the device holds behind the end, and in which transfers fail there. -/
structure FatHeader.SameInside (h : FatHeader) (fs fs' : Fat16) : Prop where
  header : fs.header = fs'.header
  cache : fs.fatCache = fs'.fatCache
  readOnly : fs.readOnly = fs'.readOnly
  disk : ∀ s < h.totalSectors, fs.disk s = fs'.disk s
  io : List.Forall₂ (fun f f' => ∀ op, ∀ s < h.totalSectors, f op s = f' op s) fs.ioFaults fs'.ioFaults
  alloc : fs.allocFaults = fs'.allocFaults

/-- **A call that stays inside the volume**: what lies behind it has no influence on the call, and is not changed. -/
structure Fat16.StaysInside (fs : Fat16) (m : Fs α) : Prop where
  alike : ∀ fs', fs.header.SameInside fs fs' → Alike fs.header.SameInside (m fs) (m fs')
  behind : ∀ a fs', m fs = some (a, fs') → ∀ s, fs.header.totalSectors ≤ s → fs'.disk s = fs.disk s

theorem FatHeader.SameInside.look (hsame : h.SameInside fs fs') : fs.look = fs'.look := by
  rw [Fat16.look, Fat16.look, hsame.header, hsame.cache, hsame.readOnly]

/-- A transfer below the end goes the same way on both. -/
theorem VolumeStep.alike {Q : α → Prop} {m : Fs α} (hstep : VolumeStep h (fun _ => False) α Q m)
    (hsame : h.SameInside fs fs') : Alike h.SameInside (m fs) (m fs') := by
  obtain ⟨hheader, hcache, hro, hdisk, hio, halloc⟩ := hsame
  cases hstep with
  | @read s hs =>
    unfold Fat.blkDevRead
    cases hf : fs.ioFaults with
    | nil =>
      rw [hf, List.forall₂_nil_left_iff] at hio
      rw [hio, hdisk s hs]
      exact .answer ⟨hheader, hcache, hro, hdisk, by rw [hf, hio]; exact .nil, halloc⟩
    | cons f rest =>
      rw [hf, List.forall₂_cons_left_iff] at hio
      obtain ⟨f', rest', hfault, hrest, hf'⟩ := hio
      rw [hf']
      simp only [← hfault .read s hs, hdisk s hs]
      exact .answer ⟨hheader, hcache, hro, hdisk, hrest, halloc⟩
  | @write s buf hs =>
    have hset : ∀ t < h.totalSectors, (fs.setSector s buf).disk t = (fs'.setSector s buf).disk t := by
      intro t ht
      by_cases hst : t = s
      · rw [hst, Fat16.setSector_disk_self, Fat16.setSector_disk_self]
      · rw [Fat16.setSector_disk_ne hst, Fat16.setSector_disk_ne hst, hdisk t ht]
    unfold Fat.blkDevWrite
    cases hf : fs.ioFaults with
    | nil =>
      rw [hf, List.forall₂_nil_left_iff] at hio
      rw [hio]
      exact .answer ⟨hheader, hcache, hro, hset, by rw [Fat16.setSector, Fat16.setSector, hf, hio]; exact .nil, halloc⟩
    | cons f rest =>
      rw [hf, List.forall₂_cons_left_iff] at hio
      obtain ⟨f', rest', hfault, hrest, hf'⟩ := hio
      rw [hf']
      simp only [← hfault .write s hs]
      split
      · exact .answer ⟨hheader, hcache, hro, hdisk, hrest, halloc⟩
      · exact .answer ⟨hheader, hcache, hro, hset, hrest, halloc⟩
  | zalloc =>
    unfold Fat.zalloc
    rw [← halloc]
    cases fs.allocFaults with
    | nil => exact .answer ⟨hheader, hcache, hro, hdisk, hio, halloc⟩
    | cons f rest => exact .answer ⟨hheader, hcache, hro, hdisk, hio, rfl⟩
  | @setCache byte value =>
    rw [Prog.modify_apply, Prog.modify_apply]
    refine .answer ?_
    rw [Fat16.setCache, Fat16.setCache, hcache]
    cases fs'.fatCache with
    | none => exact ⟨hheader, hcache, hro, hdisk, hio, halloc⟩
    | some cache =>
      simp only [hheader]
      split
      · exact ⟨rfl, rfl, hro, hdisk, hio, halloc⟩
      · exact ⟨hheader, hcache, hro, hdisk, hio, halloc⟩
  | fatGet hc => exact hc.elim
  | fatSet hc => exact hc.elim

/-- A routine that takes such steps only goes the same way on both. -/
theorem Inside.alike {Q : α → Prop} {m : Fs α} (hm : Inside h (fun _ => False) Q m) (hfs : fs.header = h)
    (hsame : h.SameInside fs fs') : Alike h.SameInside (m fs) (m fs') :=
  Built.alike (fun _ _ hsame => hsame.look)
    (fun hstep _ _ _ hheader hrun => ⟨(hstep.sameBehind hrun).1.header.trans hheader, (hstep.sameBehind hrun).2⟩)
    (fun hstep _ _ _ _ hsame => hstep.alike hsame) hm fs fs' hfs (hsame.header.symm.trans hfs) hsame

section Closed

variable (hg : h.Geometry) (hC : h.Clusters C)
include hg hC

omit hC in
theorem FatHeader.SameInside.linkAt (hsame : h.SameInside fs fs') (hheader : fs.header = h) (hfats : 0 < h.numFats.toNat)
    (hin : h.InTable d) : fs'.linkAt d = fs.linkAt d := by
  have hslot := hg.slot_lt hin hfats
  rw [Nat.zero_mul, Nat.add_zero] at hslot
  rw [Fat16.linkAt, Fat16.linkAt, ← hsame.header, ← hsame.cache, hheader, hsame.disk _ hslot]

theorem FatHeader.SameInside.closed (hsame : h.SameInside fs fs') (hclosed : fs.Closed h C) : fs'.Closed h C :=
  hclosed.of_links hg hC (hsame.header.symm.trans hclosed.header) fun _ hfats hin =>
    hsame.linkAt hg hclosed.header hfats hin

/-- **A routine built from such steps stays inside** where the links are closed. -/
theorem Within.staysInside {Q : α → Prop} {m : Fs α} (hm : Within (Fat16.Closed h C) (ClosedStep h C) Q m)
    (hclosed : fs.Closed h C) : fs.StaysInside m := by
  have hkeeps : ∀ {α : Type} {Q : α → Prop} {m : Fs α}, ClosedStep h C α Q m → ∀ fs a fs', Fat16.Closed h C fs →
      m fs = some (a, fs') → Fat16.Closed h C fs' ∧ Q a := fun hstep _ _ _ hclosed hrun => hstep.keeps hg hC hclosed hrun
  have hheader := hclosed.header
  constructor
  · intro fs' hsame
    rw [hheader] at hsame ⊢
    refine hm.alike (fun _ _ hsame => hsame.look) hkeeps (fun hstep s t hs _ hsame => ?_) fs fs' hclosed
      (hsame.closed hg hC hclosed) hsame
    exact Inside.alike (hstep.inside hg hC) hs.header hsame
  · intro a fs' hrun s hs
    rw [hheader] at hs
    obtain ⟨hends, -⟩ := hm.run
      (R := fun fs fs' : Fat16 => (fs.Closed h C → fs'.Closed h C) ∧ h.SameBehind fs fs')
      (fun _ => ⟨id, rfl, fun _ _ => rfl⟩)
      (fun _ _ _ h₁ h₂ => ⟨fun hc => h₂.1 (h₁.1 hc), h₂.2.header.trans h₁.2.header,
        fun s hs => (h₂.2.disk s hs).trans (h₁.2.disk s hs)⟩)
      (fun _ _ h₁ hc => h₁.1 hc)
      (fun hstep s a t hclosed hrun => ⟨⟨fun _ => (hkeeps hstep s a t hclosed hrun).1,
        (Inside.sameBehind (hstep.inside hg hC) hclosed.header hrun).1⟩, (hkeeps hstep s a t hclosed hrun).2⟩)
      fs a fs' hclosed hrun
    exact hends.2.disk s hs

end Closed

/-! ### Chains -/

/-- The links from a cluster lead to clusters of the volume, as long as they lead to valid cluster numbers. -/
def Fat16.ChainInside (fs : Fat16) (c : ℕ) : Prop :=
  ∀ l t, Path fs.linkAt fat16ClusterValid c l t → fat16ClusterValid t = true → t ≤ fs.header.totalClusters + 1

/-- The clusters a call may meet: those of the chain, and those that the allocator finds free. -/
def Fat16.Met (fs : Fat16) (c t : ℕ) : Prop :=
  (fat16ClusterValid t = true ∧ ∃ l, Path fs.linkAt fat16ClusterValid c l t) ∨
    (FAT16_CLUSTER_MIN ≤ t ∧ t ≤ fs.header.lastCluster ∧ fs.linkAt t = FAT16_FREE_CLUSTER)

namespace Fat16

theorem closed_met (fs : Fat16) (c : ℕ) : fs.Closed fs.header (fs.Met c) where
  header := rfl
  links := by
    rintro t (⟨ht, l, hpath⟩ | ⟨-, -, hfree⟩) hvalid
    · exact .inl ⟨hvalid, l ++ [t], path_append.mpr ⟨t, hpath, rfl, ht, rfl⟩⟩
    · rw [hfree] at hvalid
      cases hvalid
  free := fun t hmin hlast hfree => .inr ⟨hmin, hlast, hfree⟩

theorem met_first (hc : fat16ClusterValid c = true) : fs.Met c c := .inl ⟨hc, [], rfl⟩

theorem ChainInside.clusters (hin : fs.ChainInside c) : fs.header.Clusters (fs.Met c) := by
  rintro t (⟨ht, l, hpath⟩ | ⟨hmin, hlast, -⟩)
  · exact ⟨ht, hin l t hpath ht⟩
  · have hmax : fs.header.lastCluster ≤ FAT16_CLUSTER_MAX := Nat.min_le_right _ _
    rw [fat16ClusterValid, Bool.and_eq_true, decide_eq_true_eq, decide_eq_true_eq]
    exact ⟨⟨hmin, hlast.trans hmax⟩, hlast.trans fs.header.lastCluster_le_total⟩

/-- Only the links of clusters of the volume matter. -/
theorem ChainInside.of_links (hin : fs.ChainInside c) (hheader : fs'.header = fs.header)
    (hlinks : ∀ d, fat16ClusterValid d = true → d ≤ fs.header.totalClusters + 1 → fs'.linkAt d = fs.linkAt d) :
    fs'.ChainInside c := by
  intro l t hpath ht
  by_contra hfar
  rw [hheader] at hfar
  obtain ⟨m, z, hm, -, hall, hz, hzfar⟩ := hpath.first_exit (P := (· ≤ fs.header.totalClusters + 1)) ht hfar
  exact hzfar (hin m z (hm.congr fun d hd => (hlinks d (hm.ok_of_mem hd) (hall d hd)).symm) hz)

/-- Outcomes of transfers are no part of the table. -/
theorem ChainInside.withOutcomes (hin : fs.ChainInside c) (io : List (IoOp → ℕ → Bool)) (alloc : List Bool) :
    (fs.withOutcomes io alloc).ChainInside c := hin

/-- On a volume with so many clusters that every valid number is one of them, every chain is inside. -/
theorem chainInside_of_large (hlarge : 65518 ≤ fs.header.totalClusters) (c : ℕ) : fs.ChainInside c := by
  intro l t _ ht
  obtain ⟨-, hmax⟩ := valid_bounds ht
  rw [FAT16_CLUSTER_MAX] at hmax
  omega

end Fat16

/-! ### Calls that start in a chain -/

/-- A callback of `fat16_dir_scan` that stays inside when it is shown a slot of the volume, wherever the links lead. -/
def SlotCb.Contained (h : FatHeader) (slot : SlotCb κ) : Prop :=
  ∀ C, h.Clusters C → ∀ c0 loc ctx, h.InData loc.lba →
    Within (Fat16.Closed h C) (ClosedStep h C) Anything (slot c0 loc ctx)

/-- A callback of `fat16_walk_dir` that does so. -/
def DirCb.Contained (h : FatHeader) (cb : DirCb κ) : Prop :=
  ∀ C, h.Clusters C → ∀ e off loc ctx, h.InData loc.lba →
    Within (Fat16.Closed h C) (ClosedStep h C) Anything (cb e off loc ctx)

/-- The callback of `fat16_dir_find`. -/
theorem contained_findSlot (hg : h.Geometry) (name : CStr) : SlotCb.Contained h (findSlot name) :=
  fun _ hC c0 loc ctx hloc => (roomy_closed hg hC).findSlot name c0 loc ctx hloc

/-- The callback of `fat16_lookup`. -/
theorem contained_lookupCb (hg : h.Geometry) (name : CStr) : DirCb.Contained h (lookupCb name) := by
  intro C hC e off loc ctx _
  refine .ite (fun _ => .pure trivial) fun _ => .ite (fun _ => .pure trivial) fun _ => ?_
  refine .bind ((roomy_closed hg hC).fat16MakeInode e loc) fun r _ => ?_
  cases r with
  | none => exact .pure trivial
  | some ino => exact .pure trivial

/-- The calls that start at the cluster `c` stay inside the volume.  The first cluster of a file is a valid number, or 0 if
the file is new, as the first cluster of the root directory is. -/
structure Fat16.CallsInside (fs : Fat16) (c : ℕ) : Prop where
  read : ∀ (ino : Inode) buf count offset, ino.ent.cluster = c → fat16ClusterValid c = true →
    fs.StaysInside (fat16Read ino buf count offset)
  write : ∀ now (ino : Inode) buf count offset, ino.ent.cluster = c → (c ≠ 0 → fat16ClusterValid c = true) →
    fs.header.InData ino.loc.lba → fs.StaysInside (fat16Write now ino buf count offset)
  walkDir : ∀ (κ : Type) (cb : DirCb κ) (ctx : κ), cb.Contained fs.header → fs.StaysInside (fat16WalkDir c cb ctx)
  dirScan : ∀ (κ : Type) (slot : SlotCb κ) (ctx : κ), slot.Contained fs.header → fs.StaysInside (fat16DirScan c slot ctx)
  chainFree : fs.StaysInside (fat16ChainFree c)
  mkdir : ∀ now (dir : Inode) name, dir.ent.cluster = c → (c ≠ 0 → fat16ClusterValid c = true) →
    fs.StaysInside (fat16Mkdir now dir name)

/-- **Calls that start in a chain inside the volume stay inside.** -/
theorem Fat16.ChainInside.callsInside (hg : fs.header.Geometry) (hin : fs.ChainInside c) : fs.CallsInside c := by
  have hC := hin.clusters
  have hr := roomy_closed hg hC
  have hclosed := fs.closed_met c
  have hfirst : (c ≠ 0 → fat16ClusterValid c = true) → c ≠ 0 → fs.Met c c := fun hc hne => Fat16.met_first (hc hne)
  constructor
  · rintro ino buf count offset rfl hc
    exact Within.staysInside hg hC (hr.fat16Read buf count offset (Fat16.met_first hc)) hclosed
  · rintro now ino buf count offset rfl hc hloc
    exact Within.staysInside hg hC (hr.fat16Write now buf count offset hloc (hfirst hc)) hclosed
  · intro κ cb ctx hcb
    exact Within.staysInside hg hC (hr.fat16WalkDir (hcb _ hC) (fun _ => Fat16.met_first) ctx) hclosed
  · intro κ slot ctx hslot
    have hstays : Within (Fat16.Closed fs.header (fs.Met c)) (ClosedStep fs.header (fs.Met c)) Anything
        (fat16DirScan c slot ctx) :=
      hr.fat16DirScan (I := Anything) (fun c0 loc ctx hloc _ => hslot _ hC c0 loc ctx hloc) (fun _ => Fat16.met_first)
        trivial
    exact Within.staysInside hg hC hstays hclosed
  · exact Within.staysInside hg hC (hr.fat16ChainFree Fat16.met_first) hclosed
  · rintro now dir name rfl hc
    exact Within.staysInside hg hC (hr.fat16Mkdir now name (hfirst hc)) hclosed

/-- **On a volume with at least 65518 clusters all calls stay inside**, whatever the table holds and wherever they start. -/
theorem Fat16.callsInside_of_large (hg : fs.header.Geometry) (hlarge : 65518 ≤ fs.header.totalClusters) (c : ℕ) :
    fs.CallsInside c := (chainInside_of_large hlarge c).callsInside hg

end LizardOs.Fat
